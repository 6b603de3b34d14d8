import CppWebserver.LexicalPaths
import CppWebserver.RequestTargets

/-!
# Dot segments in request targets

The traversal scan drops everything up to the last `../` of a target, and up to two
bytes less, whatever stands there. What is left has the normal form of the segments
behind, so the file is the right one only if the segments before lead back to the
root. A `../` may also be the end of a name: the scan does not look at segments.
-/

namespace CppWebserver.HttpParserProgram
open ByteStrings PatternSearch DirectoryTrees ServedFiles LexicalPaths

section Paths

theorem pathMoves_append_slash (s t : Bytes) :
    pathMoves (s ++ slash :: t) = pathMoves s ++ pathMoves t := by
  rw [pathMoves, components, List.splitOn_append_cons_self, List.map_append]
  rfl

theorem normalForm_stay (ms : List (Move Bytes)) : normalForm (.stay :: ms) = normalForm ms := rfl

theorem normalForm_slash (s : Bytes) :
    normalForm (pathMoves (slash :: s)) = normalForm (pathMoves s) := by
  rw [← List.nil_append (slash :: s), pathMoves_append_slash]
  exact normalForm_stay _

theorem normalForm_dot_slash (s : Bytes) :
    normalForm (pathMoves (ascii "./" ++ s)) = normalForm (pathMoves s) := by
  have hdot : ascii "./" ++ s = ascii "." ++ slash :: s := by
    rw [show ascii "./" = ascii "." ++ [slash] by decide, List.append_assoc]
    rfl
  have hstay : pathMoves (ascii ".") = [.stay] := by decide
  rw [hdot, pathMoves_append_slash, hstay]
  exact normalForm_stay _

theorem normalForm_withoutSlash (s : Bytes) :
    normalForm (pathMoves (withoutSlash s)) = normalForm (pathMoves s) := by
  rw [withoutSlash]
  split
  · next h =>
    obtain ⟨t, rfl⟩ := h
    exact (normalForm_slash t).symm
  · rfl

end Paths

section Scan

/-- `t` is what stands behind the last `../`, or everything if there is none. -/
def BehindTraversal (s t : Bytes) : Prop :=
  ¬ ascii "../" <:+: t ∧ (s = t ∨ ∃ a, s = a ++ (ascii "../" ++ t))

theorem no_traversal_dot_slash {t : Bytes} (h : ¬ ascii "../" <:+: t) :
    ¬ ascii "../" <:+: ascii "./" ++ t := by
  rw [show ascii "./" ++ t = 46 :: slash :: t from rfl, List.infix_cons_iff]
  rintro (hp | hin)
  · rw [show ascii "../" = 46 :: ascii "./" by decide, List.cons_prefix_cons,
      show ascii "./" = 46 :: ascii "/" by decide, List.cons_prefix_cons] at hp
    exact absurd hp.2.1 (by decide)
  · exact no_traversal_slash h hin

/-- What the scan leaves at the last `../`, by its offset modulo three. -/
theorem drop_last_traversal (a t : Bytes) :
    (a ++ (ascii "../" ++ t)).drop (3 * (a.length / 3 + 1)) = ascii "./" ++ t ∨
      (a ++ (ascii "../" ++ t)).drop (3 * (a.length / 3 + 1)) = slash :: t ∨
      (a ++ (ascii "../" ++ t)).drop (3 * (a.length / 3 + 1)) = t := by
  have hcut : 3 * (a.length / 3 + 1) = a.length + (3 - a.length % 3) := by omega
  have hcases : 3 - a.length % 3 = 1 ∨ 3 - a.length % 3 = 2 ∨ 3 - a.length % 3 = 3 := by omega
  rw [hcut, ← List.drop_drop, List.drop_left]
  obtain hd | hd | hd := hcases
  · rw [hd]
    exact .inl rfl
  · rw [hd]
    exact .inr (.inl rfl)
  · rw [hd]
    exact .inr (.inr rfl)

/-- The scan stops at the first multiple of three behind the beginning of the last `../`. -/
theorem traversalCut_of_last (a : Bytes) {t : Bytes} (h : ¬ ascii "../" <:+: t) :
    TraversalCut (a ++ (ascii "../" ++ t)) (a.length / 3 + 1) := by
  constructor
  · obtain hdrop | hdrop | hdrop := drop_last_traversal a t
    · rw [hdrop]
      exact no_traversal_dot_slash h
    · rw [hdrop]
      exact no_traversal_slash h
    · rwa [hdrop]
  · intro j hj
    rw [List.drop_append_of_le_length (by omega)]
    exact (List.prefix_append _ _).isInfix.trans (List.suffix_append _ _).isInfix

/-- The resource has the normal form of what stands behind the last `../`. -/
theorem BehindTraversal.normalForm_eq {s t : Bytes} (h : BehindTraversal s t) :
    normalForm (pathMoves (withoutSlash (withoutTraversal s))) = normalForm (pathMoves t) := by
  rw [normalForm_withoutSlash]
  obtain ⟨hno, rfl | ⟨a, rfl⟩⟩ := h
  · rw [withoutTraversal_of_no_traversal hno]
  · rw [(traversalCut_of_last a hno).withoutTraversal_eq]
    obtain hdrop | hdrop | hdrop := drop_last_traversal a t
    · rw [hdrop, normalForm_dot_slash]
    · rw [hdrop, normalForm_slash]
    · rw [hdrop]

end Scan

section Segments

/-- A component of a path that is not empty. -/
def IsSegment (c : Bytes) : Prop := c ≠ [] ∧ slash ∉ c ∧ space ∉ c

/-- The segments with a slash between any two. -/
def joined (segments : List Bytes) : Bytes := [slash].intercalate segments

def segmentMoves (segments : List Bytes) : List (Move Bytes) := segments.map componentMove

variable {segments : List Bytes}

theorem joined_cons_cons (c d : Bytes) (segments : List Bytes) :
    joined (c :: d :: segments) = c ++ slash :: joined (d :: segments) := by
  rw [joined, List.intercalate_cons_cons, List.append_assoc]
  rfl

theorem joined_singleton (c : Bytes) : joined [c] = c := List.intercalate_singleton

/-- A segment that is not the last one is followed by a slash and the later ones. -/
theorem joined_append (front : List Bytes) (c : Bytes) {back : List Bytes} (hback : back ≠ []) :
    ∃ a, joined (front ++ c :: back) = a ++ (c ++ slash :: joined back) := by
  induction front with
  | nil =>
    obtain ⟨d, cs, rfl⟩ := List.exists_cons_of_ne_nil hback
    exact ⟨[], joined_cons_cons c d cs⟩
  | cons f front ih =>
    obtain ⟨a, ha⟩ := ih
    obtain ⟨d, cs, hd⟩ := List.exists_cons_of_ne_nil
      (show front ++ c :: back ≠ [] by simp)
    refine ⟨f ++ slash :: a, ?_⟩
    rw [List.cons_append, hd, joined_cons_cons, ← hd, ha, List.append_assoc, List.cons_append]

theorem notMem_joined {b : UInt8} (hb : b ≠ slash) (h : ∀ c ∈ segments, b ∉ c) :
    b ∉ joined segments := by
  induction segments with
  | nil => exact List.not_mem_nil
  | cons c cs ih =>
    have hc : b ∉ c := h c List.mem_cons_self
    cases cs with
    | nil => rwa [joined_singleton]
    | cons d cs =>
      rw [joined_cons_cons, List.mem_append, List.mem_cons]
      rintro (hin | hin | hin)
      · exact hc hin
      · exact hb hin
      · exact ih (fun e he => h e (List.mem_cons_of_mem _ he)) hin

theorem normalForm_joined (h : ∀ c ∈ segments, slash ∉ c) :
    normalForm (pathMoves (joined segments)) = normalForm (segmentMoves segments) := by
  cases hs : segments with
  | nil => decide
  | cons c cs =>
    rw [← hs, pathMoves, components, joined, List.splitOn_intercalate slash h (by simp [hs])]
    rfl

/-- A `../` is a slash behind a segment that ends in `..`. -/
theorem traversal_isInfix_joined_iff (h : ∀ c ∈ segments, slash ∉ c) :
    ascii "../" <:+: joined segments ↔ ∃ c ∈ segments.dropLast, ascii ".." <:+ c := by
  have hpattern : ascii "../" = ascii ".." ++ [slash] := by decide
  induction segments with
  | nil => exact iff_of_false (by decide) (by simp)
  | cons c cs ih =>
    have hc : slash ∉ c := h c List.mem_cons_self
    cases cs with
    | nil =>
      rw [joined_singleton]
      refine iff_of_false (fun hin => hc (hin.subset ?_)) (by simp)
      decide
    | cons d cs =>
      have ih' : ascii "../" <:+: joined (d :: cs) ↔
          ∃ e ∈ (d :: cs).dropLast, ascii ".." <:+ e :=
        ih (fun e he => h e (List.mem_cons_of_mem _ he))
      rw [joined_cons_cons, hpattern, isInfix_append_cons_iff _ (by decide) hc, ← hpattern, ih',
        List.dropLast_cons_cons]
      simp only [List.mem_cons, exists_eq_or_imp]

/-- The last of the segments that satisfy a condition, among those before the end. -/
theorem exists_last_of_mem_dropLast {P : Bytes → Prop} (h : ∃ c ∈ segments.dropLast, P c) :
    ∃ front c back, segments = front ++ c :: back ∧ back ≠ [] ∧ P c ∧
      ∀ d ∈ back.dropLast, ¬ P d := by
  induction segments with
  | nil => simp at h
  | cons c cs ih =>
    by_cases hlater : ∃ d ∈ cs.dropLast, P d
    · obtain ⟨front, d, back, rfl, hback, hd, hnone⟩ := ih hlater
      exact ⟨c :: front, d, back, rfl, hback, hd, hnone⟩
    · have hcs : cs ≠ [] := by
        rintro rfl
        simp at h
      rw [List.dropLast_cons_of_ne_nil hcs] at h
      obtain ⟨d, hmem, hd⟩ := h
      rcases List.mem_cons.mp hmem with rfl | hmem
      · exact ⟨[], d, cs, rfl, hcs, hd, fun e he hP => hlater ⟨e, he, hP⟩⟩
      · exact absurd ⟨d, hmem, hd⟩ hlater

/-- The segments up to the last one that ends in `..` before a slash have as many `..` as
names: they lead back to the root. -/
def ResolvesToRoot (segments : List Bytes) : Prop :=
  ∀ front c back, segments = front ++ c :: back → back ≠ [] → ascii ".." <:+ c →
    (∀ d ∈ back.dropLast, ¬ ascii ".." <:+ d) →
    upMoves (segmentMoves (front ++ [c])) = downMoves (segmentMoves (front ++ [c]))

/-- The segments behind the last one that ends in `..` before a slash, or all of them. -/
def BehindDots (segments back : List Bytes) : Prop :=
  (∀ d ∈ back.dropLast, ¬ ascii ".." <:+ d) ∧
    (segments = back ∨ ∃ front c, segments = front ++ c :: back ∧ back ≠ [] ∧ ascii ".." <:+ c)

theorem exists_behindDots (segments : List Bytes) : ∃ back, BehindDots segments back := by
  by_cases hdots : ∃ c ∈ segments.dropLast, ascii ".." <:+ c
  · obtain ⟨front, c, back, hs, hback, hc, hnone⟩ := exists_last_of_mem_dropLast hdots
    exact ⟨back, hnone, .inr ⟨front, c, hs, hback, hc⟩⟩
  · exact ⟨segments, fun d hd hends => hdots ⟨d, hd, hends⟩, .inl rfl⟩

section Cleaned

variable (hslash : ∀ c ∈ segments, slash ∉ c)
include hslash

/-- Without a `..` before a slash the scan drops nothing. -/
theorem behindTraversal_self (hnone : ¬ ∃ c ∈ segments.dropLast, ascii ".." <:+ c) :
    BehindTraversal (slash :: joined segments) (slash :: joined segments) := by
  rw [← traversal_isInfix_joined_iff hslash] at hnone
  exact ⟨no_traversal_slash hnone, .inl rfl⟩

/-- The last segment that ends in `..` before a slash is where the scan ends. -/
theorem behindTraversal_joined {front back : List Bytes} {c : Bytes}
    (hs : segments = front ++ c :: back) (hback : back ≠ []) (hc : ascii ".." <:+ c)
    (hnone : ∀ d ∈ back.dropLast, ¬ ascii ".." <:+ d) :
    BehindTraversal (slash :: joined segments) (joined back) := by
  obtain ⟨a, ha⟩ := joined_append front c hback
  obtain ⟨x, rfl⟩ := hc
  have hslash' : ∀ d ∈ back, slash ∉ d := fun d hd => hslash d (by simp [hs, hd])
  refine ⟨?_, .inr ⟨slash :: (a ++ x), ?_⟩⟩
  · rw [traversal_isInfix_joined_iff hslash']
    rintro ⟨d, hd, hend⟩
    exact hnone d hd hend
  · rw [hs, ha, show ascii "../" = ascii ".." ++ [slash] by decide]
    simp only [List.append_assoc, List.cons_append, List.nil_append]

theorem normalForm_cleaned_of_behindDots {back : List Bytes} (h : BehindDots segments back) :
    normalForm (pathMoves (withoutSlash (withoutTraversal (slash :: joined segments)))) =
      normalForm (segmentMoves back) := by
  obtain ⟨hnone, rfl | ⟨front, c, hs, hback, hc⟩⟩ := h
  · have hdots : ¬ ∃ c ∈ segments.dropLast, ascii ".." <:+ c := by
      rintro ⟨c, hc, hends⟩
      exact hnone c hc hends
    rw [(behindTraversal_self hslash hdots).normalForm_eq, normalForm_slash,
      normalForm_joined hslash]
  · have hslash' : ∀ d ∈ back, slash ∉ d := fun d hd => hslash d (by simp [hs, hd])
    rw [(behindTraversal_joined hslash hs hback hc hnone).normalForm_eq, normalForm_joined hslash']

/-- The scan keeps the normal form of a target that stays in the root exactly when what it
drops leads back to the root. -/
theorem normalForm_cleaned_iff (hclimbs : NeverClimbs (segmentMoves segments)) :
    normalForm (pathMoves (withoutSlash (withoutTraversal (slash :: joined segments)))) =
      normalForm (segmentMoves segments) ↔ ResolvesToRoot segments := by
  have hiff : ∀ front c back, segments = front ++ c :: back → back ≠ [] → ascii ".." <:+ c →
      (∀ d ∈ back.dropLast, ¬ ascii ".." <:+ d) →
      (normalForm (pathMoves (withoutSlash (withoutTraversal (slash :: joined segments)))) =
        normalForm (segmentMoves segments) ↔
          upMoves (segmentMoves (front ++ [c])) = downMoves (segmentMoves (front ++ [c]))) := by
    intro front c back hs hback hc hnone
    have hmoves : segmentMoves segments = segmentMoves (front ++ [c]) ++ segmentMoves back := by
      rw [hs, segmentMoves, segmentMoves, segmentMoves, ← List.map_append, List.append_assoc]
      rfl
    have hfront : NeverClimbs (segmentMoves (front ++ [c])) :=
      hclimbs.of_isPrefix (hmoves ▸ List.prefix_append _ _)
    rw [normalForm_cleaned_of_behindDots hslash ⟨hnone, .inr ⟨front, c, hs, hback, hc⟩⟩, hmoves,
      eq_comm, hfront.normalForm_append_eq_iff]
  constructor
  · intro heq front c back hs hback hc hnone
    exact (hiff front c back hs hback hc hnone).1 heq
  · intro hroot
    obtain ⟨back, hbehind⟩ := exists_behindDots segments
    obtain ⟨hnone, rfl | ⟨front, c, hs, hback, hc⟩⟩ := id hbehind
    · exact normalForm_cleaned_of_behindDots hslash hbehind
    · exact (hiff front c back hs hback hc hnone).2 (hroot front c back hs hback hc hnone)

end Cleaned

section Cut

/-- What the first bytes of a target hold of its segments; the last of these may be cut. -/
def firstSegments : List Bytes → ℕ → List Bytes
  | [], _ => []
  | _ :: _, 0 => []
  | c :: cs, k + 1 => if k ≤ c.length then [c.take k] else c :: firstSegments cs (k - c.length)

theorem firstSegments_ne_nil (c : Bytes) (cs : List Bytes) (k : ℕ) :
    firstSegments (c :: cs) (k + 1) ≠ [] := by
  rw [firstSegments]
  split <;> simp

theorem take_joined (segments : List Bytes) (k : ℕ) :
    (slash :: joined segments).take (k + 1) = slash :: joined (firstSegments segments (k + 1)) := by
  rw [List.take_succ_cons]
  refine congrArg (List.cons slash) ?_
  induction segments generalizing k with
  | nil => rw [firstSegments, joined, List.intercalate_nil, List.take_nil]
  | cons c cs ih =>
    rw [firstSegments]
    cases cs with
    | nil =>
      rw [joined_singleton]
      split
      · rw [joined_singleton]
      · next hlong =>
        rw [firstSegments, joined_singleton, List.take_of_length_le (by omega)]
    | cons d cs =>
      rw [joined_cons_cons]
      split
      · next hshort => rw [joined_singleton, List.take_append_of_le_length hshort]
      · next hlong =>
        obtain ⟨j, hj⟩ : ∃ j, k - c.length = j + 1 := ⟨k - c.length - 1, by omega⟩
        obtain ⟨e, es, hcut⟩ := List.exists_cons_of_ne_nil (firstSegments_ne_nil d cs j)
        have hk : k = c.length + (j + 1) := by omega
        rw [hj, hcut, joined_cons_cons, ← hcut, ← ih j, hk, List.take_length_add_append,
          List.take_succ_cons]

theorem slash_notMem_firstSegments (h : ∀ c ∈ segments, slash ∉ c) (k : ℕ) :
    ∀ c ∈ firstSegments segments k, slash ∉ c := by
  induction segments generalizing k with
  | nil => simp [firstSegments]
  | cons c cs ih =>
    obtain ⟨hc, hcs⟩ := List.forall_mem_cons.mp h
    cases k with
    | zero => simp [firstSegments]
    | succ k =>
      rw [firstSegments]
      split
      · exact List.forall_mem_singleton.mpr fun hin => hc (List.mem_of_mem_take hin)
      · exact List.forall_mem_cons.mpr ⟨hc, ih hcs _⟩

/-- What is cleaned of the first bytes of a target. -/
theorem normalForm_cleaned_take (hslash : ∀ c ∈ segments, slash ∉ c) {k : ℕ} {back : List Bytes}
    (h : BehindDots (firstSegments segments k) back) :
    normalForm (pathMoves (withoutSlash (withoutTraversal ((slash :: joined segments).take k)))) =
      normalForm (segmentMoves back) := by
  rw [← normalForm_cleaned_of_behindDots (slash_notMem_firstSegments hslash k) h]
  cases k with
  | zero =>
    have hslashOnly : normalForm (pathMoves (withoutSlash (withoutTraversal [slash]))) =
        normalForm (pathMoves (withoutSlash (withoutTraversal []))) := by
      rw [withoutTraversal_of_no_traversal (by decide), withoutTraversal_of_no_traversal (by decide)]
      decide
    have hnone : firstSegments segments 0 = [] := by cases segments <;> rfl
    rw [List.take_zero, hnone, joined, List.intercalate_nil, hslashOnly]
  | succ k => rw [take_joined]

end Cut

theorem no_double_slash (h : ∀ c ∈ segments, IsSegment c) :
    ¬ [slash, slash] <:+: slash :: joined segments := by
  induction segments with
  | nil => decide
  | cons c cs ih =>
    obtain ⟨hne, hslash, -⟩ := h c List.mem_cons_self
    have htail : ¬ [slash, slash] <:+: joined (c :: cs) := by
      cases cs with
      | nil =>
        rw [joined_singleton]
        exact fun hin => hslash (hin.subset List.mem_cons_self)
      | cons d cs =>
        rw [joined_cons_cons, isInfix_append_of_notMem _ _ hslash]
        exact ih fun e he => h e (List.mem_cons_of_mem _ he)
    rw [List.infix_cons_iff, List.cons_prefix_cons]
    rintro (⟨-, hp⟩ | hin)
    · obtain ⟨b, c, rfl⟩ := List.exists_cons_of_ne_nil hne
      cases cs with
      | nil =>
        rw [joined_singleton, List.cons_prefix_cons] at hp
        exact hslash (hp.1 ▸ List.mem_cons_self)
      | cons d cs =>
        rw [joined_cons_cons, List.cons_append, List.cons_prefix_cons] at hp
        exact hslash (hp.1 ▸ List.mem_cons_self)
    · exact htail hin

/-- What is cleaned of a target without two slashes in a row is no absolute path. -/
theorem withoutSlash_relative {s : Bytes} (h : ¬ [slash, slash] <:+: s) :
    ¬ [slash] <+: withoutSlash s := by
  rw [withoutSlash, show ascii "/" = [slash] by decide]
  split
  · next hp =>
    obtain ⟨t, rfl⟩ := hp
    intro hp'
    exact h (List.cons_prefix_cons.mpr ⟨rfl, hp'⟩ : [slash, slash] <+: slash :: t).isInfix
  · next hp => exact hp

end Segments

section Requests

/-- The resource of a request for a target is a relative path with the same normal form. -/
def DotSegmentsResolved (m v : Bytes) (segments : List Bytes) : Prop :=
  ∃ name, determineResourceRequest (requestLine m (joined segments) v) m = .ok name ∧
    ¬ [slash] <+: name ∧ normalForm (pathMoves name) = normalForm (segmentMoves segments)

variable {m : Bytes} {segments : List Bytes}

theorem determineResourceRequest_joined (hm : m = ascii "GET" ∨ m = ascii "POST")
    (hsegments : ∀ c ∈ segments, IsSegment c) (v : Bytes) :
    determineResourceRequest (requestLine m (joined segments) v) m =
      .ok (withoutSlash (withoutTraversal ((slash :: joined segments).take
        ((slash :: joined segments).length % 2 ^ 32)))) := by
  have hspace : space ∉ m := by
    rcases hm with rfl | rfl <;> decide
  have hlen : m.length + 1 < 2 ^ 32 := by
    rcases hm with rfl | rfl <;> decide
  have hlong : m.length + 1 ≤ (requestLine m (joined segments) v).length := by
    simp [requestLine]
  have hp : space ∉ joined segments := notMem_joined (by decide) fun c hc => (hsegments c hc).2.2
  have hprefix : m <+: requestLine m (joined segments) v := List.prefix_append _ _
  rw [determineResourceRequest_eq hprefix hlen, if_neg (Nat.not_lt.mpr hlong), resourceName,
    requestTarget_requestLine_mod hspace hp]

/-- Only the normal form of the resource is in question. -/
theorem dotSegmentsResolved_iff_normalForm (hm : m = ascii "GET" ∨ m = ascii "POST")
    (hsegments : ∀ c ∈ segments, IsSegment c) (v : Bytes) :
    DotSegmentsResolved m v segments ↔
      normalForm (pathMoves (withoutSlash (withoutTraversal ((slash :: joined segments).take
        ((slash :: joined segments).length % 2 ^ 32))))) = normalForm (segmentMoves segments) := by
  rw [DotSegmentsResolved, determineResourceRequest_joined hm hsegments]
  simp only [Except.ok.injEq, exists_eq_left', and_iff_right_iff_imp]
  intro _
  refine withoutSlash_relative fun hin => no_double_slash hsegments ?_
  exact (hin.trans (List.drop_suffix _ _).isInfix).trans (List.take_prefix _ _).isInfix

/-- A resource with the normal form of the target names no other file: where both walks
succeed, the one from the working directory and the one from the root that is served, they
end at the same place. -/
theorem DotSegmentsResolved.same_location {v : Bytes} (h : DotSegmentsResolved m v segments) :
    ∃ name, determineResourceRequest (requestLine m (joined segments) v) m = .ok name ∧
      ∀ (t : Tree Bytes FileData) (cwd q q' : List Bytes),
        t.walk (startOf cwd name) (pathMoves name) = some q →
        t.walk cwd (segmentMoves segments) = some q' → q = q' := by
  obtain ⟨name, hname, hrelative, hform⟩ := h
  refine ⟨name, hname, fun t cwd q q' hq hq' => ?_⟩
  rw [startOf, if_neg hrelative] at hq
  rw [walk_eq_apply t hq, walk_eq_apply t hq', hform]

/-- The resource of a request for a target that stays in the root names the file of the target
exactly when the segments up to the last `../` lead back to the root. A target of 2^32 bytes or
more is cut to its length modulo 2^32 first, and then the segments behind the last `../` of what
is left must lead where all of them do. -/
theorem dotSegmentsResolved_iff (m v : Bytes) (segments : List Bytes)
    (hm : m = ascii "GET" ∨ m = ascii "POST") (hsegments : ∀ c ∈ segments, IsSegment c)
    (hclimbs : NeverClimbs (segmentMoves segments)) :
    DotSegmentsResolved m v segments ↔
      ((slash :: joined segments).length < 2 ^ 32 → ResolvesToRoot segments) ∧
      (2 ^ 32 ≤ (slash :: joined segments).length → ∀ back,
        BehindDots (firstSegments segments ((slash :: joined segments).length % 2 ^ 32)) back →
          normalForm (segmentMoves back) = normalForm (segmentMoves segments)) := by
  have hslash : ∀ c ∈ segments, slash ∉ c := fun c hc => (hsegments c hc).2.1
  rw [dotSegmentsResolved_iff_normalForm hm hsegments]
  by_cases hlen : (slash :: joined segments).length < 2 ^ 32
  · rw [Nat.mod_eq_of_lt hlen, List.take_length, normalForm_cleaned_iff hslash hclimbs]
    exact ⟨fun hroot => ⟨fun _ => hroot, fun hle => absurd hlen (Nat.not_lt.mpr hle)⟩,
      fun h => h.1 hlen⟩
  · constructor
    · intro heq
      refine ⟨fun hlt => absurd hlt hlen, fun _ back hback => ?_⟩
      rw [← normalForm_cleaned_take hslash hback, heq]
    · rintro ⟨-, hcut⟩
      obtain ⟨back, hback⟩ := exists_behindDots
        (firstSegments segments ((slash :: joined segments).length % 2 ^ 32))
      rw [normalForm_cleaned_take hslash hback, hcut (Nat.le_of_not_lt hlen) back hback]

theorem dotSegmentsResolved_iff_dots :
    DotSegmentsResolved (ascii "GET") (ascii "/1.1") [ascii "a", ascii "..", ascii "b"] ↔
      ((slash :: joined [ascii "a", ascii "..", ascii "b"]).length < 2 ^ 32 →
        ResolvesToRoot [ascii "a", ascii "..", ascii "b"]) ∧
      (2 ^ 32 ≤ (slash :: joined [ascii "a", ascii "..", ascii "b"]).length → ∀ back,
        BehindDots (firstSegments [ascii "a", ascii "..", ascii "b"]
            ((slash :: joined [ascii "a", ascii "..", ascii "b"]).length % 2 ^ 32)) back →
          normalForm (segmentMoves back) =
            normalForm (segmentMoves [ascii "a", ascii "..", ascii "b"])) := by
  refine dotSegmentsResolved_iff (ascii "GET") (ascii "/1.1") [ascii "a", ascii "..", ascii "b"]
    (.inl rfl) ?_ (by decide)
  simp only [List.forall_mem_cons, IsSegment]
  decide

/-- `/x/y/../z` names `x/z`, and the resource is `./z`. -/
theorem ordinary_segment_dropped :
    ¬ DotSegmentsResolved (ascii "GET") (ascii "/1.1\r\n\r\n")
      [ascii "x", ascii "y", ascii "..", ascii "z"] := by
  have hsegments : ∀ c ∈ [ascii "x", ascii "y", ascii "..", ascii "z"], IsSegment c := by
    simp only [List.forall_mem_cons, IsSegment]
    decide
  rw [dotSegmentsResolved_iff_normalForm (.inl rfl) hsegments, Nat.mod_eq_of_lt (by decide),
    List.take_length, normalForm_cleaned_iff (fun c hc => (hsegments c hc).2.1) (by decide)]
  intro hroot
  have hcounts := hroot [ascii "x", ascii "y"] (ascii "..") [ascii "z"] rfl (by simp)
    List.suffix_rfl (by simp)
  exact absurd hcounts (by decide)

end Requests

end CppWebserver.HttpParserProgram
