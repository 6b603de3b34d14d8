import CppWebserver.DelimitedStreams

/-!
# Streams that are read alike however they are cut

A lossy reader keeps of each piece only the symbols before the first null. What
it ends up with depends on the cut in general: a terminator is missed when it
ends inside a piece, and a symbol is lost when it shares a piece with an earlier
null. The main theorem is an equivalence; its harder half builds, for every
other stream, two cuts into pieces of at most two symbols that are told apart by
the length of what is received.
-/

namespace CppWebserver.DelimitedStreams

variable {α : Type*} [DecidableEq α]

/-- What a lossy reader keeps of a piece. -/
def beforeNull (z : α) (c : List α) : List α := c.takeWhile (· ≠ z)

/-- The lossy reader on all pieces of a stream. -/
def received (z : α) (t : List α) (cs : List (List α)) : Gathering α :=
  gather t .start (cs.map (beforeNull z))

/-- A cut of a stream into nonempty pieces of bounded size. -/
structure Segmentation (n : ℕ) (s : List α) (cs : List (List α)) : Prop where
  flatten_eq : cs.flatten = s
  nonempty : ∀ c ∈ cs, c ≠ []
  length_le : ∀ c ∈ cs, c.length ≤ n

/-- The terminator occurs in the part before the first null at most at its very
end, and when it does not occur there, only nulls follow. -/
def SelfDelimiting (z : α) (t s : List α) : Prop :=
  (∀ p, p <+: s.takeWhile (· ≠ z) → t <:+ p → p = s.takeWhile (· ≠ z)) ∧
    (t <:+ s.takeWhile (· ≠ z) ∨ ∀ b ∈ s.dropWhile (· ≠ z), b = z)

namespace Segmentation

omit [DecidableEq α] in
theorem append {n : ℕ} {s s' : List α} {cs ds : List (List α)} (h : Segmentation n s cs)
    (h' : Segmentation n s' ds) : Segmentation n (s ++ s') (cs ++ ds) where
  flatten_eq := by rw [List.flatten_append, h.flatten_eq, h'.flatten_eq]
  nonempty c hc := (List.mem_append.mp hc).elim (h.nonempty c) (h'.nonempty c)
  length_le c hc := (List.mem_append.mp hc).elim (h.length_le c) (h'.length_le c)

omit [DecidableEq α] in
theorem piece {n : ℕ} {c : List α} (hne : c ≠ []) (hlen : c.length ≤ n) :
    Segmentation n c [c] where
  flatten_eq := by simp
  nonempty := by simpa using hne
  length_le := by simpa using hlen

omit [DecidableEq α] in
theorem mono {n m : ℕ} {s : List α} {cs : List (List α)} (h : Segmentation n s cs)
    (hnm : n ≤ m) : Segmentation m s cs where
  flatten_eq := h.flatten_eq
  nonempty := h.nonempty
  length_le c hc := (h.length_le c hc).trans hnm

end Segmentation

/-- The finest cut. -/
def singletons (s : List α) : List (List α) := s.map (fun a => [a])

omit [DecidableEq α] in
theorem singletons_append (s s' : List α) :
    singletons (s ++ s') = singletons s ++ singletons s' := List.map_append

omit [DecidableEq α] in
theorem segmentation_singletons {n : ℕ} (hn : 1 ≤ n) (s : List α) :
    Segmentation n s (singletons s) where
  flatten_eq := by
    induction s with
    | nil => rfl
    | cons a s ih => simpa [singletons] using ih
  nonempty c hc := by
    obtain ⟨a, -, rfl⟩ := List.mem_map.mp hc
    simp
  length_le c hc := by
    obtain ⟨a, -, rfl⟩ := List.mem_map.mp hc
    simpa using hn

@[simp] theorem beforeNull_null (z : α) (c : List α) : beforeNull z (z :: c) = [] := by
  simp [beforeNull]

theorem beforeNull_of_notMem {z : α} {c : List α} (h : z ∉ c) : beforeNull z c = c := by
  rw [beforeNull, List.takeWhile_eq_self_iff]
  intro b hb
  simpa using fun he : b = z => h (he ▸ hb)

theorem beforeNull_append {z : α} {c : List α} (h : z ∉ c) (d : List α) :
    beforeNull z (c ++ d) = c ++ beforeNull z d := by
  induction c with
  | nil => rfl
  | cons a c ih =>
    obtain ⟨ha, hc⟩ := List.ne_and_not_mem_of_not_mem_cons h
    simpa [beforeNull, Ne.symm ha] using ih hc

/-- The finest cut loses nothing but the nulls. -/
theorem flatten_beforeNull_singletons (z : α) (s : List α) :
    ((singletons s).map (beforeNull z)).flatten = s.filter (· ≠ z) := by
  induction s with
  | nil => rfl
  | cons a s ih =>
    by_cases ha : a = z
    · subst ha
      simpa [singletons, beforeNull] using ih
    · simpa [singletons, beforeNull, ha] using ih

theorem filter_of_notMem {z : α} {s : List α} (h : z ∉ s) : s.filter (· ≠ z) = s := by
  rw [List.filter_eq_self]
  intro b hb
  simpa using fun he : b = z => h (he ▸ hb)

/-- A piece that takes the null-free part to the first null or the end shows just that part. -/
theorem beforeNull_of_reaching {z : α} {v m r : List α} (hv : z ∉ v) (hm : m <+: r)
    (hr : r = [] ∨ ∃ r', r = z :: r') : beforeNull z (v ++ m) = v := by
  rw [beforeNull_append hv]
  cases m with
  | nil => simp [beforeNull]
  | cons b m =>
    rcases hr with rfl | ⟨r', rfl⟩
    · exact absurd (List.prefix_nil.mp hm) (List.cons_ne_nil b m)
    · rw [(List.cons_prefix_cons.mp hm).1]
      simp

theorem beforeNull_of_all_null {z : α} {e : List α} (h : ∀ b ∈ e, b = z) :
    beforeNull z e = [] := by
  cases e with
  | nil => rfl
  | cons b e =>
    rw [h b List.mem_cons_self]
    simp

/-- Cutting a self-delimiting stream never changes what is received: the reader
is inside the null-free part with all of it still to come, `v` being the rest. -/
theorem gather_selfDelimiting {z : α} {t : List α} (cs : List (List α)) (acc v r : List α)
    (hcs : cs.flatten = v ++ r) (hv : z ∉ v) (hr : r = [] ∨ ∃ r', r = z :: r')
    (hacc : ¬ t <:+ acc)
    (hopen : ∀ p, p <+: v → t <:+ acc ++ p → p = v)
    (hend : t <:+ acc ++ v ∨ ∀ b ∈ r, b = z) :
    (gather t ⟨acc, false⟩ (cs.map (beforeNull z))).text = acc ++ v := by
  induction cs generalizing acc v with
  | nil =>
    have hnil := (List.append_eq_nil_iff.mp hcs.symm).1
    simp [hnil]
  | cons c cs ih =>
    rw [List.flatten_cons] at hcs
    rw [List.map_cons, gather_cons, add_of_open]
    rcases List.append_eq_append_iff.mp hcs with ⟨m, rfl, hm⟩ | ⟨m, rfl, hm⟩
    · -- the piece stays inside the null-free part
      have hc : z ∉ c := fun h => hv (List.mem_append_left _ h)
      rw [beforeNull_of_notMem hc]
      by_cases ht : t <:+ acc ++ c
      · rw [decide_eq_true ht, gather_of_closed t rfl]
        have hcm : c = c ++ m := hopen c (List.prefix_append _ _) ht
        rw [← hcm]
      · rw [decide_eq_false ht, ih (acc ++ c) m hm (fun h => hv (List.mem_append_right _ h)) ht]
        · rw [List.append_assoc]
        · intro p hp hs
          have := hopen (c ++ p) (by simpa using hp) (by simpa [List.append_assoc] using hs)
          exact List.append_cancel_left this
        · simpa [List.append_assoc] using hend
    · -- the piece reaches the first null or the end
      rw [beforeNull_of_reaching hv ⟨cs.flatten, hm.symm⟩ hr]
      by_cases ht : t <:+ acc ++ v
      · rw [decide_eq_true ht, gather_of_closed t rfl]
      · rw [decide_eq_false ht, gather_of_empty_pieces ht]
        intro d hd
        obtain ⟨e, he, rfl⟩ := List.mem_map.mp hd
        refine beforeNull_of_all_null fun b hb => hend.resolve_left ht b ?_
        rw [hm]
        exact List.mem_append_right _ (List.mem_flatten.mpr ⟨e, he, hb⟩)

theorem takeWhile_notMem (z : α) (s : List α) : z ∉ s.takeWhile (· ≠ z) := by
  intro h
  simpa using List.mem_takeWhile_imp h

theorem dropWhile_null (z : α) (s : List α) :
    s.dropWhile (· ≠ z) = [] ∨ ∃ r, s.dropWhile (· ≠ z) = z :: r := by
  induction s with
  | nil => exact .inl rfl
  | cons a s ih =>
    by_cases ha : a = z
    · subst ha
      exact .inr ⟨s, by simp⟩
    · simpa [ha] using ih

/-- A self-delimiting stream yields its part before the first null. -/
theorem received_text_of_selfDelimiting {z : α} {t s : List α} (ht : t ≠ [])
    (h : SelfDelimiting z t s) {cs : List (List α)} (hcs : cs.flatten = s) :
    (received z t cs).text = s.takeWhile (· ≠ z) := by
  have hsplit : cs.flatten = s.takeWhile (· ≠ z) ++ s.dropWhile (· ≠ z) := by
    rw [hcs, List.takeWhile_append_dropWhile]
  simpa [received, Gathering.start] using
    gather_selfDelimiting cs [] _ _ hsplit (takeWhile_notMem z s) (dropWhile_null z s)
      (by simpa using ht) (by simpa using h.1) (by simpa using h.2)

/-- Before the reader stops, a piece that shows nothing changes nothing. -/
theorem gather_hidden {z : α} {t acc c : List α} (hacc : ¬ t <:+ acc)
    (hc : beforeNull z c = []) (cs : List (List α)) :
    gather t ⟨acc, false⟩ ((c :: cs).map (beforeNull z)) =
      gather t ⟨acc, false⟩ (cs.map (beforeNull z)) := by
  rw [List.map_cons, gather_cons, hc, add_of_open, List.append_nil, decide_eq_false hacc]

/-- After a null the cut can be chosen so that either nothing more is received or
a piece of two symbols is. No cut of this kind adds exactly one symbol. -/
theorem exists_cut_after_null {z : α} {t acc : List α} (hacc : ¬ t <:+ acc) (w : List α)
    (hw : w = [] ∨ ∃ w', w = z :: w') :
    ∃ cs, Segmentation 2 w cs ∧
      ((gather t ⟨acc, false⟩ (cs.map (beforeNull z))).text = acc ∨
        acc.length + 2 ≤ (gather t ⟨acc, false⟩ (cs.map (beforeNull z))).text.length) := by
  induction hn : w.length using Nat.strong_induction_on generalizing w with
  | _ n ih =>
    rcases hw with rfl | ⟨w, rfl⟩
    · exact ⟨[], ⟨rfl, by simp, by simp⟩, .inl rfl⟩
    -- after a hidden piece the rest again is empty or begins with a null
    have hidden : ∀ c w', c ++ w' = z :: w → c.length ≤ 2 → beforeNull z c = [] → c ≠ [] →
        (w' = [] ∨ ∃ w'', w' = z :: w'') →
        ∃ cs, Segmentation 2 (z :: w) cs ∧
          ((gather t ⟨acc, false⟩ (cs.map (beforeNull z))).text = acc ∨
            acc.length + 2 ≤ (gather t ⟨acc, false⟩ (cs.map (beforeNull z))).text.length) := by
      intro c w' hcw hlen hc hne hw'
      have hlt : w'.length < n := by
        have hpos := List.length_pos_iff.mpr hne
        have := congrArg List.length hcw
        rw [List.length_append] at this
        omega
      obtain ⟨cs, hseg, hcs⟩ := ih _ hlt w' hw' rfl
      refine ⟨c :: cs, ?_, by simpa only [gather_hidden hacc hc] using hcs⟩
      rw [← hcw]
      exact (Segmentation.piece hne hlen).append hseg
    match w with
    | [] => exact hidden [z] [] rfl (by simp) (by simp) (by simp) (.inl rfl)
    | [x] => exact hidden [z, x] [] rfl (by simp) (by simp) (by simp) (.inl rfl)
    | x :: y :: w =>
      by_cases hx : x = z
      · subst hx
        exact hidden [x] (x :: y :: w) rfl (by simp) (by simp) (by simp) (.inr ⟨_, rfl⟩)
      by_cases hy : y = z
      · subst hy
        exact hidden [y, x] (y :: w) rfl (by simp) (by simp) (by simp) (.inr ⟨_, rfl⟩)
      -- two symbols in a row: the null alone, then both at once
      refine ⟨[z] :: [x, y] :: singletons w, ?_, .inr ?_⟩
      · exact (Segmentation.piece (c := [z]) (by simp) (by simp)).append
          ((Segmentation.piece (c := [x, y]) (by simp) (by simp)).append
            (segmentation_singletons (by omega) w))
      · rw [gather_hidden hacc (by simp), List.map_cons, gather_cons]
        have hxy : z ∉ [x, y] := by simp [Ne.symm hx, Ne.symm hy]
        rw [beforeNull_of_notMem hxy, add_of_open]
        refine le_trans ?_ (prefix_gather_text t _ _).length_le
        simp

private theorem exists_null_then_symbol_of_null (z : α) (r : List α) (h : ∃ b ∈ r, b ≠ z) :
    ∃ a x c, z :: r = a ++ z :: x :: c ∧ x ≠ z := by
  induction r with
  | nil => simp at h
  | cons y r ih =>
    by_cases hy : y = z
    · subst hy
      obtain ⟨a, x, c, he, hx⟩ := ih (by simpa using h)
      exact ⟨y :: a, x, c, by rw [he, List.cons_append], hx⟩
    · exact ⟨[], y, r, rfl, hy⟩

theorem exists_null_then_symbol {z b : α} {s : List α} (hb : b ∈ s.dropWhile (· ≠ z))
    (hbz : b ≠ z) : ∃ a x c, s = a ++ z :: x :: c ∧ x ≠ z := by
  rcases dropWhile_null z s with h | ⟨r, h⟩
  · rw [h] at hb
    cases hb
  · rw [h] at hb
    obtain ⟨a, x, c, he, hx⟩ :=
      exists_null_then_symbol_of_null z r ⟨b, (List.mem_cons.mp hb).resolve_left hbz, hbz⟩
    refine ⟨s.takeWhile (· ≠ z) ++ a, x, c, ?_, hx⟩
    rw [List.append_assoc, ← he, ← h, List.takeWhile_append_dropWhile]

/-- The finest cut but for one symbol, which shares a piece with the null before it. -/
def spoiled (z : α) (a : List α) (x : α) (c : List α) : List (List α) :=
  singletons a ++ [z, x] :: singletons c

omit [DecidableEq α] in
theorem segmentation_spoiled (z : α) (a : List α) (x : α) (c : List α) :
    Segmentation 2 (a ++ z :: x :: c) (spoiled z a x c) :=
  (segmentation_singletons (by omega) a).append
    ((Segmentation.piece (c := [z, x]) (by simp) (by simp)).append
      (segmentation_singletons (by omega) c))

theorem length_spoiled {z x : α} (hx : x ≠ z) (a c : List α) :
    ((spoiled z a x c).map (beforeNull z)).flatten.length + 1 =
      ((a ++ z :: x :: c).filter (· ≠ z)).length := by
  rw [spoiled, List.map_append, List.flatten_append, flatten_beforeNull_singletons,
    List.map_cons, List.flatten_cons, flatten_beforeNull_singletons]
  simp [hx]
  omega

theorem received_text_of_open {z : α} {t : List α} {cs : List (List α)}
    (h : (received z t cs).closed = false) :
    (received z t cs).text = (cs.map (beforeNull z)).flatten := by
  rw [received, Gathering.start, gather_text_of_open t [] _ h, List.nil_append]

theorem received_append_of_open {z : α} {t : List α} {cs : List (List α)}
    (h : (received z t cs).closed = false) (ds : List (List α)) :
    received z t (cs ++ ds) =
      gather t ⟨(cs.map (beforeNull z)).flatten, false⟩ (ds.map (beforeNull z)) := by
  have hstate : received z t cs = ⟨(cs.map (beforeNull z)).flatten, false⟩ :=
    Gathering.ext (received_text_of_open h) h
  rw [← hstate, received, List.map_append, gather_append]
  rfl

theorem received_append_of_closed {z : α} {t : List α} {cs : List (List α)}
    (h : (received z t cs).closed = true) (ds : List (List α)) :
    received z t (cs ++ ds) = received z t cs := by
  rw [received, List.map_append, gather_append]
  exact gather_of_closed t h _

theorem length_received_text_le (z : α) (t : List α) (cs : List (List α)) :
    (received z t cs).text.length ≤ (cs.map (beforeNull z)).flatten.length := by
  simpa [received, Gathering.start] using
    length_gather_text_le t .start (cs.map (beforeNull z))

/-- An open reader does not hold the terminator at the end. -/
theorem not_suffix_of_open {z : α} {t : List α} (ht : t ≠ []) {cs : List (List α)}
    (h : (received z t cs).closed = false) : ¬ t <:+ (cs.map (beforeNull z)).flatten := by
  have hf : (received z t cs).Faithful t := faithful_gather (faithful_start ht) _
  intro hs
  rw [← received_text_of_open h] at hs
  simpa [h] using hf.2 hs

/-- A null-free beginning of the stream that ends with the terminator stops the
reader of the finest cut. -/
theorem received_closed_of_prefix {z : α} {t p s : List α} (ht : t ≠ []) (hp : p <+: s)
    (hz : z ∉ p) (hs : t <:+ p) : (received z t (singletons s)).closed = true := by
  obtain ⟨r, rfl⟩ := hp
  by_contra hopen
  rw [Bool.not_eq_true, singletons_append] at hopen
  cases hc : (received z t (singletons p)).closed with
  | false =>
    refine not_suffix_of_open ht hc ?_
    rwa [flatten_beforeNull_singletons, filter_of_notMem hz]
  | true =>
    rw [received_append_of_closed hc, hc] at hopen
    cases hopen

/-- The symbol that stops the reader of the finest cut. -/
theorem exists_closing_symbol {z : α} {t s : List α} (ht : t ≠ [])
    (h : (received z t (singletons s)).closed = true) :
    ∃ s₀ x s₁, s = s₀ ++ x :: s₁ ∧ x ≠ z ∧ (received z t (singletons s₀)).closed = false ∧
      t <:+ s₀.filter (· ≠ z) ++ [x] := by
  obtain ⟨cs₀, c, cs₁, hcs, hopen, hsuf⟩ := exists_closing_piece h
  rw [singletons, List.map_map, List.map_eq_append_iff] at hcs
  obtain ⟨s₀, s', rfl, rfl, hcs⟩ := hcs
  obtain ⟨x, s₁, rfl, rfl, -⟩ := List.map_eq_cons_iff.mp hcs
  rw [← List.map_map] at hopen hsuf
  change t <:+ [] ++ ((singletons s₀).map (beforeNull z)).flatten ++ beforeNull z [x] at hsuf
  change (received z t (singletons s₀)).closed = false at hopen
  have hx : x ≠ z := by
    rintro rfl
    refine not_suffix_of_open ht hopen ?_
    simpa using hsuf
  refine ⟨s₀, x, s₁, rfl, hx, hopen, ?_⟩
  rw [flatten_beforeNull_singletons] at hsuf
  simpa [beforeNull, hx] using hsuf

section Dependent

variable {z : α} {t s : List α} {n : ℕ}

/-- What is received does not depend on the cut. -/
def SegmentationIndependent (z : α) (t s : List α) (n : ℕ) : Prop :=
  ∀ cs ds, Segmentation n s cs → Segmentation n s ds →
    (received z t cs).text = (received z t ds).text

/-- A stream that the finest cut never stops ends in nulls only. -/
theorem null_tail_of_open (hn : 2 ≤ n) (H : SegmentationIndependent z t s n)
    (hopen : (received z t (singletons s)).closed = false) :
    ∀ b ∈ s.dropWhile (· ≠ z), b = z := by
  intro b hb
  by_contra hbz
  obtain ⟨a, x, c, rfl, hx⟩ := exists_null_then_symbol hb hbz
  have hfine := received_text_of_open hopen
  rw [flatten_beforeNull_singletons] at hfine
  have heq := H _ _ (segmentation_singletons (by omega) _) ((segmentation_spoiled z a x c).mono hn)
  have hle := length_received_text_le z t (spoiled z a x c)
  have hlen := length_spoiled hx a c
  rw [← heq, hfine] at hle
  omega

/-- Nothing but a null may follow the symbol that stops the finest cut. -/
theorem null_after_closing (hn : 2 ≤ n) {s₀ s₁ : List α} {x : α} (hx : x ≠ z)
    (H : SegmentationIndependent z t (s₀ ++ x :: s₁) n)
    (hopen : (received z t (singletons s₀)).closed = false)
    (hfine : (received z t (singletons (s₀ ++ x :: s₁))).text = s₀.filter (· ≠ z) ++ [x]) :
    s₁ = [] ∨ ∃ s', s₁ = z :: s' := by
  cases s₁ with
  | nil => exact .inl rfl
  | cons y s₁ =>
    by_cases hy : y = z
    · exact .inr ⟨s₁, by rw [hy]⟩
    exfalso
    -- the closing symbol and the next one in one piece
    have hseg : Segmentation n (s₀ ++ x :: y :: s₁) (singletons s₀ ++ [x, y] :: singletons s₁) :=
      (segmentation_singletons (by omega) s₀).append
        ((Segmentation.piece (c := [x, y]) (by simp) (by simpa using hn)).append
          (segmentation_singletons (by omega) s₁))
    have heq := H _ _ (segmentation_singletons (by omega) _) hseg
    have hxy : z ∉ [x, y] := by simp [Ne.symm hx, Ne.symm hy]
    rw [hfine, received_append_of_open hopen, flatten_beforeNull_singletons, List.map_cons,
      gather_cons, beforeNull_of_notMem hxy, add_of_open] at heq
    have hle := (prefix_gather_text t ⟨s₀.filter (· ≠ z) ++ [x, y],
      decide (t <:+ s₀.filter (· ≠ z) ++ [x, y])⟩ ((singletons s₁).map (beforeNull z))).length_le
    rw [← heq] at hle
    simp at hle

/-- No null may precede the symbol that stops the finest cut. -/
theorem no_null_before_closing (ht : t ≠ []) (hn : 2 ≤ n) {s₀ s₁ : List α} {x : α} (hx : x ≠ z)
    (H : SegmentationIndependent z t (s₀ ++ x :: s₁) n)
    (hfine : (received z t (singletons (s₀ ++ x :: s₁))).text = s₀.filter (· ≠ z) ++ [x])
    (hs₁ : s₁ = [] ∨ ∃ s', s₁ = z :: s') : z ∉ s₀ := by
  intro hz
  obtain ⟨a, y, c, he, hy⟩ : ∃ a y c, s₀ ++ [x] = a ++ z :: y :: c ∧ y ≠ z := by
    have hmem : x ∈ (s₀ ++ [x]).dropWhile (· ≠ z) := by
      rw [List.dropWhile_append, if_neg]
      · simp
      · simpa using hz
    exact exists_null_then_symbol hmem hx
  have hcount := length_spoiled hy a c
  rw [← he, List.filter_append] at hcount
  have hspoiled := (segmentation_spoiled z a y c).mono hn
  rw [← he] at hspoiled
  have hwhole : ∀ ds, Segmentation n s₁ ds →
      (received z t (spoiled z a y c ++ ds)).text.length = (s₀.filter (· ≠ z)).length + 1 := by
    intro ds hds
    have hseg := hspoiled.append hds
    rw [List.append_assoc, List.singleton_append] at hseg
    rw [← H _ _ (segmentation_singletons (by omega) _) hseg, hfine]
    simp
  have hlast : ([x].filter (· ≠ z)).length = 1 := by simp [hx]
  rw [List.length_append, hlast] at hcount
  have hle := length_received_text_le z t (spoiled z a y c)
  cases hc : (received z t (spoiled z a y c)).closed with
  | true =>
    have := hwhole _ (segmentation_singletons (by omega) s₁)
    rw [received_append_of_closed hc] at this
    omega
  | false =>
    obtain ⟨ds, hds, hlen⟩ := exists_cut_after_null (not_suffix_of_open ht hc) s₁ hs₁
    have := hwhole ds (hds.mono hn)
    rw [received_append_of_open hc] at this
    rcases hlen with h | h
    · rw [h] at this
      omega
    · omega

/-- Only self-delimiting streams are read alike however they are cut. -/
theorem selfDelimiting_of_independent (ht : t ≠ []) (hn : 2 ≤ n)
    (H : SegmentationIndependent z t s n) : SelfDelimiting z t s := by
  cases hc : (received z t (singletons s)).closed with
  | false =>
    refine ⟨?_, .inr (null_tail_of_open hn H hc)⟩
    intro p hp hs
    have hz : z ∉ p := fun h => takeWhile_notMem z s (hp.subset h)
    have := received_closed_of_prefix ht (hp.trans (List.takeWhile_prefix _)) hz hs
    rw [hc] at this
    cases this
  | true =>
    obtain ⟨s₀, x, s₁, rfl, hx, hopen, hsuf⟩ := exists_closing_symbol ht hc
    have hfine : (received z t (singletons (s₀ ++ x :: s₁))).text =
        s₀.filter (· ≠ z) ++ [x] := by
      have hvis : beforeNull z [x] = [x] := beforeNull_of_notMem (by simpa using Ne.symm hx)
      rw [singletons_append, received_append_of_open hopen, flatten_beforeNull_singletons]
      change (gather t _ (beforeNull z [x] :: _)).text = _
      rw [hvis, gather_cons, add_of_open, decide_eq_true hsuf, gather_of_closed t rfl]
    have hs₁ := null_after_closing hn hx H hopen hfine
    have hz := no_null_before_closing ht hn hx H hfine hs₁
    have hpre : (s₀ ++ x :: s₁).takeWhile (· ≠ z) = s₀ ++ [x] := by
      have hfree : z ∉ s₀ ++ [x] := by simp [hz, Ne.symm hx]
      have := beforeNull_append hfree s₁
      rw [List.append_assoc, List.singleton_append] at this
      rw [beforeNull] at this
      rw [this]
      rcases hs₁ with rfl | ⟨s', rfl⟩ <;> simp [beforeNull]
    rw [filter_of_notMem hz] at hsuf
    refine ⟨?_, .inl (by rwa [hpre])⟩
    rw [hpre]
    intro p hp hs
    rcases List.prefix_concat_iff.mp hp with rfl | hp
    · rfl
    · have := received_closed_of_prefix ht hp (fun h => hz (hp.subset h)) hs
      rw [hopen] at this
      cases this

/-- The streams that are read alike under every cut into nonempty pieces of
bounded size are the self-delimiting ones. -/
theorem segmentationIndependent_iff (ht : t ≠ []) (hn : 2 ≤ n) :
    SegmentationIndependent z t s n ↔ SelfDelimiting z t s := by
  constructor
  · exact selfDelimiting_of_independent ht hn
  · intro h cs ds hcs hds
    rw [received_text_of_selfDelimiting ht h hcs.flatten_eq,
      received_text_of_selfDelimiting ht h hds.flatten_eq]

end Dependent

end CppWebserver.DelimitedStreams
