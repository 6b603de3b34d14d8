import CppWebserver.HttpParserProgram

/-!
# Method and target of a request

The method is recognised by prefix. The target is the slice after the method and
one more byte, as long as the wrapping difference of two narrowed positions; the
traversal scan then drops a prefix whose length is a multiple of three, and one
leading slash goes.
-/

namespace CppWebserver.HttpParserProgram
open ByteStrings PatternSearch

/-- `k` advances of the traversal scan are the least that leave no `../`. -/
def TraversalCut (s : Bytes) (k : ℕ) : Prop :=
  ¬ ascii "../" <:+: s.drop (3 * k) ∧ ∀ j < k, ascii "../" <:+: s.drop (3 * j)

theorem TraversalCut.unique {s : Bytes} {k l : ℕ} (hk : TraversalCut s k)
    (hl : TraversalCut s l) : k = l := by
  apply le_antisymm
  · exact Nat.le_of_not_lt (fun h => hl.1 (hk.2 l h))
  · exact Nat.le_of_not_lt (fun h => hk.1 (hl.2 k h))

/-- One round of the loop for every advance, from any position inside the string. -/
theorem traversalEnd_spec (s : Bytes) (e : ℕ) (he : e ≤ s.length) :
    ∃ k, traversalEnd s e = e + 3 * k ∧ e + 3 * k ≤ s.length ∧
      ¬ ascii "../" <:+: s.drop (e + 3 * k) ∧ ∀ j < k, ascii "../" <:+: s.drop (e + 3 * j) := by
  fun_induction traversalEnd s e with
  | case1 e h ih =>
    have hlen : e + 3 ≤ s.length := add_length_le_of_find h
    obtain ⟨k, hend, hle, hno, hbefore⟩ := ih hlen
    have hshift : e + 3 * (k + 1) = e + 3 + 3 * k := by omega
    refine ⟨k + 1, by rw [hend, hshift], by omega, by rwa [hshift], ?_⟩
    intro j hj
    cases j with
    | zero => exact (find_isSome_iff s _ he).1 h
    | succ j =>
      have := hbefore j (by omega)
      rwa [show e + 3 * (j + 1) = e + 3 + 3 * j by omega]
  | case2 e h =>
    exact ⟨0, rfl, he, fun hin => h ((find_isSome_iff s _ he).2 hin), by simp⟩

theorem exists_traversalCut (s : Bytes) :
    ∃ k, TraversalCut s k ∧ 3 * k ≤ s.length ∧ traversalEnd s 0 = 3 * k := by
  obtain ⟨k, hend, hle, hno, hbefore⟩ := traversalEnd_spec s 0 (Nat.zero_le _)
  simp only [Nat.zero_add] at hend hle hno hbefore
  exact ⟨k, ⟨hno, hbefore⟩, hle, hend⟩

/-- The suffix that `RemoveTraversalSequences` leaves. -/
def withoutTraversal (s : Bytes) : Bytes := s.drop (traversalEnd s 0)

theorem TraversalCut.withoutTraversal_eq {s : Bytes} {k : ℕ} (h : TraversalCut s k) :
    withoutTraversal s = s.drop (3 * k) := by
  obtain ⟨l, hl, -, hend⟩ := exists_traversalCut s
  rw [withoutTraversal, hend, h.unique hl]

theorem withoutTraversal_no_traversal (s : Bytes) :
    ¬ ascii "../" <:+: withoutTraversal s := by
  obtain ⟨k, hk, -, -⟩ := exists_traversalCut s
  rw [hk.withoutTraversal_eq]
  exact hk.1

theorem withoutTraversal_of_no_traversal {s : Bytes} (h : ¬ ascii "../" <:+: s) :
    withoutTraversal s = s := by
  have hk : TraversalCut s 0 := ⟨h, by simp⟩
  rw [hk.withoutTraversal_eq, Nat.mul_zero, List.drop_zero]

/-- The scan stays inside the string, so its `substr` never throws. -/
theorem removeTraversalSequences_eq (s : Bytes) :
    removeTraversalSequences s = .ok (withoutTraversal s) := by
  obtain ⟨k, -, hle, hend⟩ := exists_traversalCut s
  exact substr_toEnd_of_le (by omega)

/-- The loop of `RemoveTraversalSequences` makes `k` advances, stays inside the string and
leaves the suffix behind them. -/
structure TraversalScan (s : Bytes) (k : ℕ) : Prop where
  goesOn : ∀ j < k, (find s (ascii "../") (3 * j)).isSome
  stops : find s (ascii "../") (3 * k) = none
  ends : traversalEnd s 0 = 3 * k
  inside : 3 * k ≤ s.length
  leaves : removeTraversalSequences s = .ok (s.drop (3 * k))
  cut : TraversalCut s k

theorem exists_traversalScan (s : Bytes) : ∃ k, TraversalScan s k := by
  obtain ⟨k, hk, hle, hend⟩ := exists_traversalCut s
  refine ⟨k, ?_, ?_, hend, hle, ?_, hk⟩
  · intro j hj
    exact (find_isSome_iff s _ (by omega)).2 (hk.2 j hj)
  · rw [← Option.not_isSome_iff_eq_none, find_isSome_iff s _ hle]
    exact hk.1
  · rw [removeTraversalSequences_eq, hk.withoutTraversal_eq]

/-- The scan of any string ends after at most a third of its length, with the longest suffix
behind a multiple of three that has no `../`; a string without one is left as it is, so a
second scan changes nothing. -/
theorem removeTraversalSequences_scan (s : Bytes) :
    (∃ k ≤ s.length / 3, TraversalScan s k) ∧
      (∀ t, removeTraversalSequences s = .ok t → ¬ ascii "../" <:+: t) ∧
      (¬ ascii "../" <:+: s → removeTraversalSequences s = .ok s) ∧
      (removeTraversalSequences s >>= removeTraversalSequences) = removeTraversalSequences s := by
  obtain ⟨k, hk⟩ := exists_traversalScan s
  have hinside := hk.inside
  refine ⟨⟨k, by omega, hk⟩, ?_, ?_, ?_⟩
  · intro t ht
    rw [hk.leaves, Except.ok.injEq] at ht
    rw [← ht]
    exact hk.cut.1
  · intro hno
    rw [removeTraversalSequences_eq, withoutTraversal_of_no_traversal hno]
  · rw [hk.leaves, ok_bind, removeTraversalSequences_eq, withoutTraversal_of_no_traversal hk.cut.1]

/-- One leading slash goes. -/
def withoutSlash (s : Bytes) : Bytes := if ascii "/" <+: s then s.drop 1 else s

@[simp] theorem withoutSlash_slash (s : Bytes) : withoutSlash (slash :: s) = s :=
  if_pos ⟨s, rfl⟩

theorem withoutSlash_of_ne {a : UInt8} (h : a ≠ slash) (s : Bytes) :
    withoutSlash (a :: s) = a :: s := by
  refine if_neg ?_
  rw [show ascii "/" = [slash] by decide, List.cons_prefix_cons]
  exact fun hp => h hp.1.symm

/-- The wrapping 32-bit difference between the first ` HTTP` and the byte after
the separator. -/
def targetLength (inRequest inMethod : Bytes) : ℕ :=
  (sizeT (firstIndex (ascii " HTTP") inRequest) + 2 ^ 32 - (inMethod.length + 1)) % 2 ^ 32

/-- The slice of a request that is taken for its target. -/
def requestTarget (inRequest inMethod : Bytes) : Bytes :=
  (inRequest.drop (inMethod.length + 1)).take (targetLength inRequest inMethod)

/-- The resource a request names: its target without the prefix that the traversal
scan drops and without one leading slash. -/
def resourceName (inRequest inMethod : Bytes) : Bytes :=
  withoutSlash (withoutTraversal (requestTarget inRequest inMethod))

private theorem startPosition_eq {inRequest inMethod : Bytes} (hm : inMethod <+: inRequest)
    (hlen : inMethod.length + 1 < 2 ^ 32) :
    (UInt32.ofNat (sizeT (find inRequest inMethod 0) + inMethod.length + 1)).toNat =
      inMethod.length + 1 := by
  rw [find_zero, firstIndex_of_match hm, UInt32.toNat_ofNat', sizeT, Nat.zero_add,
    Nat.mod_eq_of_lt hlen]

private theorem difference_eq {inRequest inMethod : Bytes} (hm : inMethod <+: inRequest)
    (hlen : inMethod.length + 1 < 2 ^ 32) :
    (UInt32.ofNat (sizeT (find inRequest (ascii " HTTP") 0)) -
      UInt32.ofNat (sizeT (find inRequest inMethod 0) + inMethod.length + 1)).toNat =
      targetLength inRequest inMethod := by
  rw [UInt32.toNat_sub, startPosition_eq hm hlen, UInt32.toNat_ofNat', find_zero, Nat.add_comm,
    Nat.mod_add_mod, ← Nat.add_sub_assoc hlen.le, targetLength]

/-- A request that begins with the method and is longer has a resource name; the
one that is the bare method makes `substr` throw. -/
theorem determineResourceRequest_eq {inRequest inMethod : Bytes} (hm : inMethod <+: inRequest)
    (hlen : inMethod.length + 1 < 2 ^ 32) :
    determineResourceRequest inRequest inMethod =
      if inRequest.length < inMethod.length + 1 then .error .outOfRange
      else .ok (resourceName inRequest inMethod) := by
  have hstart := startPosition_eq hm hlen
  by_cases hl : inRequest.length < inMethod.length + 1
  · simp only [determineResourceRequest, hstart, substr_of_lt hl, if_pos hl, error_bind]
  · simp only [determineResourceRequest, hstart, difference_eq hm hlen,
      substr_of_le (Nat.le_of_not_lt hl), if_neg hl, ok_bind, removeTraversalSequences_eq,
      erase_zero]
    rw [← requestTarget, resourceName, withoutSlash]
    by_cases hs : ascii "/" <+: withoutTraversal (requestTarget inRequest inMethod)
    · rw [if_pos hs, if_pos hs]
    · rw [if_neg hs, if_neg hs]
      rfl

/-- A request line with a target that begins with a slash and has no space:
method, target and ` HTTP`, then anything. -/
def requestLine (m p v : Bytes) : Bytes := m ++ space :: slash :: (p ++ (ascii " HTTP" ++ v))

theorem firstIndex_requestLine {m p : Bytes} (hm : space ∉ m) (hp : space ∉ p) (v : Bytes) :
    firstIndex (ascii " HTTP") (requestLine m p v) = some (m.length + (p.length + 1 + 1)) := by
  have hpat : ascii " HTTP" = space :: ascii "HTTP" := by decide
  have hslash : space ∉ slash :: p := by
    rw [List.mem_cons]
    exact fun h => h.elim (by decide) hp
  have hmis : ¬ space :: ascii "HTTP" <+: space :: slash :: (p ++ (space :: ascii "HTTP" ++ v)) := by
    rw [List.cons_prefix_cons, show ascii "HTTP" = 72 :: ascii "TTP" by decide,
      List.cons_prefix_cons]
    exact fun h => absurd h.2.1 (by decide)
  rw [requestLine, hpat, firstIndex_append_of_notMem m _ hm, firstIndex_cons_of_mismatch hmis,
    ← List.cons_append, firstIndex_append_self (slash :: p) v hslash]
  rfl

/-- The slice of such a request is its target, cut where the narrowing makes it end. -/
theorem requestTarget_requestLine_mod {m p : Bytes} (hm : space ∉ m) (hp : space ∉ p) (v : Bytes) :
    requestTarget (requestLine m p v) m = (slash :: p).take ((slash :: p).length % 2 ^ 32) := by
  have hlength : targetLength (requestLine m p v) m = (slash :: p).length % 2 ^ 32 := by
    rw [targetLength, firstIndex_requestLine hm hp, sizeT, List.length_cons]
    omega
  have hdrop : (requestLine m p v).drop (m.length + 1) =
      (slash :: p) ++ (ascii " HTTP" ++ v) := by
    rw [requestLine, ← List.drop_drop, List.drop_left]
    rfl
  rw [requestTarget, hlength, hdrop, List.take_append_of_le_length (Nat.mod_le _ _)]

/-- A short target is not cut. -/
theorem requestTarget_requestLine {m p : Bytes} (hm : space ∉ m) (hp : space ∉ p) (v : Bytes)
    (hlen : (slash :: p).length < 2 ^ 32) :
    requestTarget (requestLine m p v) m = slash :: p := by
  rw [requestTarget_requestLine_mod hm hp, Nat.mod_eq_of_lt hlen, List.take_length]

/-- A slash in front does not complete a traversal sequence. -/
theorem no_traversal_slash {p : Bytes} (h : ¬ ascii "../" <:+: p) :
    ¬ ascii "../" <:+: slash :: p := by
  rw [List.infix_cons_iff, show ascii "../" = 46 :: ascii "./" by decide, List.cons_prefix_cons]
  rintro (⟨hdot, -⟩ | hin)
  · exact absurd hdot (by decide)
  · exact h hin

/-- The resource of such a request is the target after its slash. -/
theorem determineResourceRequest_requestLine {m p : Bytes} (hm : space ∉ m) (hp : space ∉ p)
    (hdots : ¬ ascii "../" <:+: p) (v : Bytes) (hlen : (requestLine m p v).length < 2 ^ 32) :
    determineResourceRequest (requestLine m p v) m = .ok p := by
  have hle : m.length + (p.length + 1) + 1 ≤ (requestLine m p v).length := by
    simp [requestLine]
  have hm' : m <+: requestLine m p v := List.prefix_append _ _
  have hshort : (slash :: p).length < 2 ^ 32 := by
    rw [List.length_cons]
    omega
  rw [determineResourceRequest_eq hm' (by omega), if_neg (by omega), resourceName,
    requestTarget_requestLine hm hp v hshort,
    withoutTraversal_of_no_traversal (no_traversal_slash hdots), withoutSlash_slash]

theorem requestTypes_incomparable :
    ∀ a ∈ fRequestTypes, ∀ b ∈ fRequestTypes, a <+: b → a = b := by decide

/-- A request has the type whose name it begins with. -/
theorem determineRequestType_eq_iff {m : Bytes} (hm : m ∈ fRequestTypes) (inRequest : Bytes) :
    determineRequestType inRequest = m ↔ m <+: inRequest := by
  have hne : m ≠ [] := by
    rintro rfl
    revert hm
    decide
  cases hfind : fRequestTypes.find? (fun aType => rfind inRequest aType 0 = some 0) with
  | none =>
    have hnone := List.find?_eq_none.mp hfind m hm
    rw [decide_eq_true_eq, rfind_zero_eq_some_iff] at hnone
    simp [determineRequestType, hfind, hnone, hne.symm]
  | some a =>
    have ha := List.find?_some hfind
    rw [decide_eq_true_eq, rfind_zero_eq_some_iff] at ha
    simp only [determineRequestType, hfind, Option.getD_some]
    constructor
    · rintro rfl
      exact ha
    · intro hp
      have hmem := List.mem_of_find?_eq_some hfind
      rcases List.prefix_or_prefix_of_prefix ha hp with h | h
      · exact requestTypes_incomparable a hmem m hm h
      · exact (requestTypes_incomparable m hm a hmem h).symm

/-- The request line as a client writes it, with anything behind it. -/
theorem requestLine_of_tokens (m p v rest : Bytes) :
    m ++ ascii " /" ++ p ++ ascii " " ++ (ascii "HTTP" ++ v) ++ crlf ++ rest =
      requestLine m p (v ++ crlf ++ rest) := by
  have hslash : ascii " /" = [space, slash] := by decide
  have hhttp : ascii " HTTP" = ascii " " ++ ascii "HTTP" := by decide
  simp only [requestLine, hslash, hhttp, List.append_assoc, List.cons_append, List.nil_append]

/-- Method and target of a request line come back unchanged. -/
theorem request_target_round_trip (m p v rest : Bytes) (hm : m = ascii "GET" ∨ m = ascii "POST")
    (hp : space ∉ p) (hdots : ¬ ascii "../" <:+: p) (hv : ascii "HTTP" <+: v)
    (hlen : (m ++ ascii " /" ++ p ++ ascii " " ++ v ++ crlf ++ rest).length < 2 ^ 32) :
    determineRequestType (m ++ ascii " /" ++ p ++ ascii " " ++ v ++ crlf ++ rest) = m ∧
      determineResourceRequest (m ++ ascii " /" ++ p ++ ascii " " ++ v ++ crlf ++ rest) m =
        .ok p := by
  obtain ⟨v, rfl⟩ := hv
  have hspace : space ∉ m := by
    rcases hm with rfl | rfl <;> decide
  have htype : m ∈ fRequestTypes := by
    rcases hm with rfl | rfl <;> decide
  rw [requestLine_of_tokens] at hlen ⊢
  constructor
  · rw [determineRequestType_eq_iff htype]
    exact List.prefix_append _ _
  · exact determineResourceRequest_requestLine hspace hp hdots _ hlen

theorem request_target_round_trip_http :
    determineRequestType (ascii "GET" ++ ascii " /" ++ ascii "HTTP/GET" ++ ascii " " ++
        ascii "HTTP/1.1" ++ crlf ++ ascii "Via: GET / HTTP") = ascii "GET" ∧
      determineResourceRequest (ascii "GET" ++ ascii " /" ++ ascii "HTTP/GET" ++ ascii " " ++
        ascii "HTTP/1.1" ++ crlf ++ ascii "Via: GET / HTTP") (ascii "GET") =
        .ok (ascii "HTTP/GET") :=
  request_target_round_trip (ascii "GET") (ascii "HTTP/GET") (ascii "HTTP/1.1")
    (ascii "Via: GET / HTTP") (.inl rfl) (by decide) (by decide) (by decide) (by decide)

end CppWebserver.HttpParserProgram
