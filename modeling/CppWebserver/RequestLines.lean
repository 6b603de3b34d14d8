import CppWebserver.ResponseMessages

/-!
# What is read from the request line

A request line has a method, a target and a version. The program finds the three
by searches in the whole request: the method as a prefix, the end of the target as
the first ` HTTP`, the version as the first `HTTP`. Each is read from the request
line only if nothing else in the request looks like it.
-/

namespace CppWebserver.HttpParserProgram
open ByteStrings PatternSearch ServedFiles HttpMessages

/-- Everything before the first line break. -/
def firstLine (inRequest : Bytes) : Bytes := inRequest.takeWhile matchesDot

theorem matchesDot_of_mem {line : Bytes} (h : Unbroken line) : ∀ b ∈ line, matchesDot b = true := by
  intro b hb
  rw [matchesDot, decide_eq_true_eq]
  exact ⟨fun hcr => h.1 (hcr ▸ hb), fun hlf => h.2 (hlf ▸ hb)⟩

theorem firstLine_append {line : Bytes} (h : Unbroken line) (s : Bytes) :
    firstLine (line ++ s) = line ++ firstLine s :=
  List.takeWhile_append_of_pos (matchesDot_of_mem h)

theorem unbroken_of_isPrefix_firstLine {inRequest line : Bytes} (h : line <+: firstLine inRequest) :
    Unbroken line :=
  (unbroken_takeWhile_matchesDot inRequest).of_subset h.subset

section Target

/-- Where the target begins, before this is narrowed. -/
def startPosition (inRequest inMethod : Bytes) : ℕ :=
  sizeT (find inRequest inMethod 0) + inMethod.length + 1

/-- Where the target ends, before this is narrowed. -/
def lastPosition (inRequest : Bytes) : ℕ := sizeT (find inRequest (ascii " HTTP") 0)

/-- The resource is read from the first line, by positions that fit 32 bits. -/
structure FromFirstLine (inRequest inMethod : Bytes) : Prop where
  start_fits : (UInt32.ofNat (startPosition inRequest inMethod)).toNat =
    startPosition inRequest inMethod
  last_fits : (UInt32.ofNat (lastPosition inRequest)).toNat = lastPosition inRequest
  ordered : startPosition inRequest inMethod ≤ lastPosition inRequest
  difference : (UInt32.ofNat (lastPosition inRequest) -
    UInt32.ofNat (startPosition inRequest inMethod)).toNat =
      lastPosition inRequest - startPosition inRequest inMethod
  in_line : lastPosition inRequest ≤ (firstLine inRequest).length
  name : ∃ name, determineResourceRequest inRequest inMethod = .ok name ∧
    name <:+: firstLine inRequest ∧ Unbroken name

/-- The first ` HTTP` stands in the first line, behind the byte that follows the method,
and in the first 4 GiB. -/
def VersionInFirstLine (inRequest inMethod : Bytes) : Prop :=
  ∃ separator target rest,
    inRequest = inMethod ++ separator :: (target ++ (ascii " HTTP" ++ rest)) ∧
    ¬ ascii " HTTP" <:+: separator :: target ∧ Unbroken (separator :: target) ∧
    inMethod.length + 1 + target.length < 2 ^ 32

variable {inRequest inMethod : Bytes}

theorem startPosition_of_isPrefix (hm : inMethod <+: inRequest) :
    startPosition inRequest inMethod = inMethod.length + 1 := by
  rw [startPosition, find_zero, firstIndex_of_match hm, sizeT, Nat.zero_add]

/-- The end of the target as a search for a pattern without a second space. -/
theorem firstIndex_http_eq_some_iff (s : Bytes) (i : ℕ) :
    firstIndex (ascii " HTTP") s = some i ↔
      ∃ a b, s = a ++ (ascii " HTTP" ++ b) ∧ a.length = i ∧ ¬ ascii " HTTP" <:+: a := by
  rw [show ascii " HTTP" = space :: ascii "HTTP" by decide]
  exact firstIndex_cons_eq_some_iff (by decide) s i

theorem FromFirstLine.versionInFirstLine (h : FromFirstLine inRequest inMethod)
    (hm : inMethod <+: inRequest) : VersionInFirstLine inRequest inMethod := by
  obtain ⟨-, hfits, hordered, -, hline, -⟩ := h
  have hlt : lastPosition inRequest < 2 ^ 32 := by
    rw [← hfits]
    exact UInt32.toNat_lt _
  rw [startPosition_of_isPrefix hm] at hordered
  rw [lastPosition, find_zero] at hordered hline hlt
  cases hindex : firstIndex (ascii " HTTP") inRequest with
  | none =>
    rw [hindex, sizeT] at hlt
    exact absurd hlt (by decide)
  | some i =>
    rw [hindex, sizeT] at hordered hline hlt
    obtain ⟨a, b, hs, rfl, hno⟩ := (firstIndex_http_eq_some_iff _ _).1 hindex
    have ha : a <+: inRequest := ⟨ascii " HTTP" ++ b, hs.symm⟩
    have hunbroken : Unbroken a := unbroken_of_isPrefix_firstLine
      (List.prefix_of_prefix_length_le ha (List.takeWhile_prefix _) hline)
    obtain ⟨t, rfl⟩ := List.prefix_of_prefix_length_le hm ha (by omega)
    cases t with
    | nil => simp at hordered
    | cons separator target =>
      have hsuffix : separator :: target <:+ inMethod ++ separator :: target :=
        List.suffix_append _ _
      refine ⟨separator, target, b, by rw [hs, List.append_assoc, List.cons_append], ?_, ?_, ?_⟩
      · exact fun hin => hno (hin.trans hsuffix.isInfix)
      · exact hunbroken.of_subset hsuffix.subset
      · rw [List.length_append, List.length_cons] at hlt
        omega

/-- What is left of a target is a suffix of it. -/
theorem resourceName_isSuffix (inRequest inMethod : Bytes) :
    resourceName inRequest inMethod <:+ requestTarget inRequest inMethod := by
  have hscan : withoutTraversal (requestTarget inRequest inMethod) <:+
      requestTarget inRequest inMethod := List.drop_suffix _ _
  rw [resourceName, withoutSlash]
  split
  · exact (List.drop_suffix _ _).trans hscan
  · exact hscan

section Line

variable {separator : UInt8} {target rest : Bytes}
  (hs : inRequest = inMethod ++ separator :: (target ++ (ascii " HTTP" ++ rest)))
  (hspace : space ∉ inMethod) (hno : ¬ ascii " HTTP" <:+: separator :: target)
include hs

theorem line_isPrefix_firstLine (hmethod : Unbroken inMethod)
    (hunbroken : Unbroken (separator :: target)) :
    inMethod ++ separator :: target <+: firstLine inRequest := by
  rw [hs, firstLine_append hmethod, ← List.cons_append, firstLine_append hunbroken,
    ← List.append_assoc]
  exact List.prefix_append _ _

include hspace hno

theorem firstIndex_of_line :
    firstIndex (ascii " HTTP") inRequest = some (inMethod.length + (target.length + 1)) := by
  have htail := (firstIndex_http_eq_some_iff (separator :: (target ++ (ascii " HTTP" ++ rest)))
    (target.length + 1)).2 ⟨separator :: target, rest, rfl, rfl, hno⟩
  rw [show ascii " HTTP" = space :: ascii "HTTP" by decide] at htail hs ⊢
  rw [hs, firstIndex_append_of_notMem _ _ hspace, htail]
  rfl

theorem lastPosition_of_line : lastPosition inRequest = inMethod.length + 1 + target.length := by
  rw [lastPosition, find_zero, firstIndex_of_line hs hspace hno, sizeT]
  omega

/-- The slice between the two positions. -/
theorem requestTarget_of_line (hlt : inMethod.length + 1 + target.length < 2 ^ 32) :
    requestTarget inRequest inMethod = target := by
  have hlength : targetLength inRequest inMethod = target.length := by
    rw [targetLength, firstIndex_of_line hs hspace hno, sizeT]
    omega
  rw [requestTarget, hlength, hs, ← List.drop_drop, List.drop_left, List.drop_one, List.tail_cons,
    List.take_left]

theorem resourceName_isInfix_firstLine (hmethod : Unbroken inMethod)
    (hunbroken : Unbroken (separator :: target))
    (hlt : inMethod.length + 1 + target.length < 2 ^ 32) :
    resourceName inRequest inMethod <:+: firstLine inRequest := by
  have hname : resourceName inRequest inMethod <:+ inMethod ++ separator :: target := by
    have htarget := resourceName_isSuffix inRequest inMethod
    rw [requestTarget_of_line hs hspace hno hlt] at htarget
    exact (htarget.trans (List.suffix_cons _ _)).trans (List.suffix_append _ _)
  exact hname.isInfix.trans (line_isPrefix_firstLine hs hmethod hunbroken).isInfix

end Line

theorem VersionInFirstLine.fromFirstLine (h : VersionInFirstLine inRequest inMethod)
    (hspace : space ∉ inMethod) (hmethod : Unbroken inMethod) :
    FromFirstLine inRequest inMethod := by
  obtain ⟨separator, target, rest, hs, hno, hunbroken, hlt⟩ := h
  have hm : inMethod <+: inRequest := ⟨_, hs.symm⟩
  have hstart : startPosition inRequest inMethod = inMethod.length + 1 :=
    startPosition_of_isPrefix hm
  have hlast : lastPosition inRequest = inMethod.length + 1 + target.length :=
    lastPosition_of_line hs hspace hno
  have hstart32 : (UInt32.ofNat (startPosition inRequest inMethod)).toNat =
      startPosition inRequest inMethod := by
    rw [UInt32.toNat_ofNat', hstart, Nat.mod_eq_of_lt (by omega)]
  have hlast32 : (UInt32.ofNat (lastPosition inRequest)).toNat = lastPosition inRequest := by
    rw [UInt32.toNat_ofNat', hlast, Nat.mod_eq_of_lt hlt]
  have hordered : startPosition inRequest inMethod ≤ lastPosition inRequest := by
    rw [hstart, hlast]
    exact Nat.le_add_right _ _
  have hname : resourceName inRequest inMethod <:+: firstLine inRequest :=
    resourceName_isInfix_firstLine hs hspace hno hmethod hunbroken hlt
  refine ⟨hstart32, hlast32, hordered, ?_, ?_, resourceName inRequest inMethod, ?_, hname, ?_⟩
  · rw [UInt32.toNat_sub_of_le, hstart32, hlast32]
    rwa [UInt32.le_iff_toNat_le, hstart32, hlast32]
  · have hle := (line_isPrefix_firstLine hs hmethod hunbroken).length_le
    rw [List.length_append, List.length_cons] at hle
    omega
  · have hlong : ¬ inRequest.length < inMethod.length + 1 := by
      rw [hs, List.length_append, List.length_cons]
      omega
    rw [determineResourceRequest_eq hm (by omega), if_neg hlong]
  · exact (unbroken_takeWhile_matchesDot inRequest).of_subset hname.subset

/-- The resource of a GET or POST request is read from its first line, without truncation
or wrapping, exactly when the first ` HTTP` of the request stands there behind a separator. -/
theorem fromFirstLine_iff (inRequest inMethod : Bytes)
    (hmethod : inMethod = ascii "GET" ∨ inMethod = ascii "POST") (hm : inMethod <+: inRequest)
    (hlong : inMethod.length + 1 ≤ inRequest.length) :
    FromFirstLine inRequest inMethod ↔ VersionInFirstLine inRequest inMethod := by
  constructor
  · exact fun h => h.versionInFirstLine hm
  · intro h
    rcases hmethod with rfl | rfl
    · exact h.fromFirstLine (by decide) ⟨by decide, by decide⟩
    · exact h.fromFirstLine (by decide) ⟨by decide, by decide⟩

theorem fromFirstLine_iff_index :
    FromFirstLine (ascii "GET /index.html HTTP/1.1\r\n\r\n") (ascii "GET") ↔
      VersionInFirstLine (ascii "GET /index.html HTTP/1.1\r\n\r\n") (ascii "GET") :=
  fromFirstLine_iff (ascii "GET /index.html HTTP/1.1\r\n\r\n") (ascii "GET") (.inl rfl)
    (by decide) (by decide)

/-- Without a version the rest of the request becomes part of the name. -/
theorem versionless_request_not_from_first_line :
    ¬ FromFirstLine (ascii "GET /index.html\r\n\r\n") (ascii "GET") := by
  intro h
  obtain ⟨name, hname, -, hunbroken⟩ := h.name
  have htarget : requestTarget (ascii "GET /index.html\r\n\r\n") (ascii "GET") =
      ascii "/index.html\r\n\r\n" := by decide +kernel
  rw [determineResourceRequest_eq (by decide) (by decide), if_neg (by decide), resourceName,
    htarget, withoutTraversal_of_no_traversal (by decide)] at hname
  cases hname
  exact absurd hunbroken.1 (by decide)

end Target

section Version

/-- A request with tokens for the method, the target and the version. -/
def tokenLine (m target v rest : Bytes) : Bytes :=
  m ++ space :: (target ++ space :: (v ++ (crlf ++ rest)))

/-- The version that a request leaves in the object and that answers begin with is `v`, and
the target is taken to end where `v` begins. -/
structure VersionIs (calls : List ParserCall) (env : Environment) (m target v rest : Bytes) :
    Prop where
  stored : ((HttpParser.after calls).onData env (tokenLine m target v rest)).parser.httpVersion = v
  echoed : ∀ inResponse, v ++ ascii " " <+: ((HttpParser.after calls).onData env
    (tokenLine m target v rest)).parser.craftResponseMessage inResponse
  boundary : find (tokenLine m target v rest) (ascii " HTTP") 0 = some (m.length + 1 + target.length)

/-- The version reaches from the first `HTTP` to the end of its line. -/
theorem getHttpVersion_of_line {line rest : Bytes} (h : Unbroken line) {i : ℕ}
    (hi : firstIndex (ascii "HTTP") (line ++ (crlf ++ rest)) = some i) (hle : i ≤ line.length) :
    getHttpVersion (line ++ (crlf ++ rest)) = line.drop i := by
  obtain ⟨-, ⟨t, ht⟩, -⟩ := (firstIndex_eq_some_iff _ _ _).1 hi
  have hrest : (line ++ (crlf ++ rest)).drop (i + 4) = t := by
    rw [← List.drop_drop, ← ht, show 4 = (ascii "HTTP").length from rfl, List.drop_left]
  have hname : Unbroken (ascii "HTTP") := ⟨by decide, by decide⟩
  have hdrop : Unbroken (line.drop i) := h.of_subset (List.drop_subset i line)
  have hend : firstLine (crlf ++ rest) = [] := rfl
  rw [getHttpVersion, hi]
  dsimp only
  rw [hrest, ← firstLine, ← firstLine_append hname, ht, List.drop_append_of_le_length hle,
    firstLine_append hdrop, hend, List.append_nil]

/-- The first `HTTP` of a request line is that of the version, or one before it. -/
theorem firstIndex_tokenLine (m target : Bytes) {v : Bytes} (hv : ascii "HTTP" <+: v)
    (rest : Bytes) :
    ∃ i, firstIndex (ascii "HTTP") (tokenLine m target v rest) = some i ∧
      i ≤ m.length + 1 + (target.length + 1) ∧
      (i = m.length + 1 + (target.length + 1) ↔
        ¬ ascii "HTTP" <:+: m ∧ ¬ ascii "HTTP" <:+: target) := by
  have hspace : space ∉ ascii "HTTP" := by decide
  rw [tokenLine, firstIndex_append_cons _ _ hspace, firstIndex_append_cons _ _ hspace,
    firstIndex_of_match (hv.trans (List.prefix_append _ _)), ← firstIndex_eq_none_iff,
    ← firstIndex_eq_none_iff]
  cases hm : firstIndex (ascii "HTTP") m with
  | some i =>
    have hlen := firstIndex_add_length_le hm
    refine ⟨i, rfl, by omega, ?_⟩
    simp only [reduceCtorEq, false_and, iff_false]
    omega
  | none =>
    cases ht : firstIndex (ascii "HTTP") target with
    | some i =>
      have hlen := firstIndex_add_length_le ht
      refine ⟨m.length + 1 + i, rfl, by omega, ?_⟩
      simp only [reduceCtorEq, and_false, iff_false]
      rw [show (ascii "HTTP").length = 4 from rfl] at hlen
      omega
    | none => exact ⟨_, rfl, le_rfl, by simp⟩

variable {m target v : Bytes}

/-- The whole rest of the line is stored from the first `HTTP` on. -/
theorem getHttpVersion_tokenLine (hm : Unbroken m) (ht : Unbroken target) (hv : Unbroken v)
    (hhttp : ascii "HTTP" <+: v) (rest : Bytes) :
    getHttpVersion (tokenLine m target v rest) = v ↔
      ¬ ascii "HTTP" <:+: m ∧ ¬ ascii "HTTP" <:+: target := by
  have hspace : Unbroken [space] := ⟨by decide, by decide⟩
  have hline : Unbroken (m ++ [space] ++ target ++ [space] ++ v) :=
    (((hm.append hspace).append ht).append hspace).append hv
  have hassoc : tokenLine m target v rest =
      m ++ [space] ++ target ++ [space] ++ v ++ (crlf ++ rest) := by
    simp only [tokenLine, List.append_assoc, List.cons_append, List.nil_append]
  have hlength : (m ++ [space] ++ target ++ [space]).length =
      m.length + 1 + (target.length + 1) := by
    simp only [List.length_append, List.length_singleton]
    omega
  obtain ⟨i, hi, hle, hiff⟩ := firstIndex_tokenLine m target hhttp rest
  rw [hassoc] at hi
  have hin : i ≤ (m ++ [space] ++ target ++ [space] ++ v).length := by
    rw [List.length_append, hlength]
    omega
  rw [hassoc, getHttpVersion_of_line hline hi hin, ← hiff]
  constructor
  · intro heq
    have hlen := congrArg List.length heq
    rw [List.length_drop, List.length_append, hlength] at hlen
    omega
  · rintro rfl
    rw [← hlength, List.drop_left]

/-- Without `HTTP` in the target its end is found where the version begins. -/
theorem find_tokenLine (hm : space ∉ m) (ht : space ∉ target) (hhttp : ascii "HTTP" <+: v)
    (hno : ¬ ascii "HTTP" <:+: target) (rest : Bytes) :
    find (tokenLine m target v rest) (ascii " HTTP") 0 = some (m.length + 1 + target.length) := by
  obtain ⟨v, rfl⟩ := hhttp
  have hpat : ascii " HTTP" = space :: ascii "HTTP" := by decide
  have hmis : ¬ space :: ascii "HTTP" <+:
      space :: (target ++ space :: (ascii "HTTP" ++ v ++ (crlf ++ rest))) := by
    rw [List.cons_prefix_cons, isPrefix_append_cons_iff _ _ (by decide)]
    exact fun hp => hno hp.2.isInfix
  have hself : firstIndex (space :: ascii "HTTP")
      (target ++ space :: (ascii "HTTP" ++ v ++ (crlf ++ rest))) = some target.length := by
    rw [List.append_assoc]
    exact firstIndex_append_self target (v ++ (crlf ++ rest)) ht
  rw [find_zero, hpat, tokenLine, firstIndex_append_of_notMem _ _ hm,
    firstIndex_cons_of_mismatch hmis, hself]
  simp only [Option.map_some, Option.some.injEq]
  omega

/-- The stored version is the third token of the request line exactly when neither of the
other two contains `HTTP`. -/
theorem versionIs_iff (calls : List ParserCall) (env : Environment) (m target v rest : Bytes)
    (hm : space ∉ m ∧ Unbroken m) (ht : space ∉ target ∧ Unbroken target)
    (hv : ascii "HTTP" <+: v ∧ Unbroken v) :
    VersionIs calls env m target v rest ↔
      ¬ ascii "HTTP" <:+: m ∧ ¬ ascii "HTTP" <:+: target := by
  have hstored : ((HttpParser.after calls).onData env
      (tokenLine m target v rest)).parser.httpVersion =
        getHttpVersion (tokenLine m target v rest) := by
    rw [HttpParser.onData_parser]
    rfl
  rw [← getHttpVersion_tokenLine hm.2 ht.2 hv.2 hv.1 rest, ← hstored]
  constructor
  · exact fun h => h.stored
  · intro hversion
    have hno := (getHttpVersion_tokenLine hm.2 ht.2 hv.2 hv.1 rest).1 (hstored ▸ hversion)
    refine ⟨hversion, ?_, find_tokenLine hm.1 ht.1 hv.1 hno.2 rest⟩
    intro inResponse
    rw [HttpParser.craftResponseMessage, hversion]
    simp only [List.append_assoc, List.prefix_append_right_inj]
    exact List.prefix_append _ _

theorem versionIs_iff_index :
    VersionIs [] .bare (ascii "GET") (ascii "/index.html") (ascii "HTTP/1.1") crlf ↔
      ¬ ascii "HTTP" <:+: ascii "GET" ∧ ¬ ascii "HTTP" <:+: ascii "/index.html" :=
  versionIs_iff [] .bare (ascii "GET") (ascii "/index.html") (ascii "HTTP/1.1") crlf
    ⟨by decide, by decide, by decide⟩ ⟨by decide, by decide, by decide⟩
    ⟨by decide, by decide, by decide⟩

/-- The version is taken from the target of `GET /HTTP HTTP/1.1`. -/
theorem http_in_target_stored :
    ¬ VersionIs [] .bare (ascii "GET") (ascii "/HTTP") (ascii "HTTP/1.1") crlf := by
  intro h
  have hstored := h.stored
  rw [HttpParser.onData_parser] at hstored
  have hversion : getHttpVersion (tokenLine (ascii "GET") (ascii "/HTTP") (ascii "HTTP/1.1") crlf) =
      ascii "HTTP HTTP/1.1" := by decide
  exact absurd (hversion.symm.trans hstored) (by decide)

end Version

section Method

/-- The first token of the request line. -/
def methodToken (inRequest : Bytes) : Bytes := (firstLine inRequest).takeWhile (· ≠ space)

/-- A byte that ends the first token. -/
def EndsToken (b : UInt8) : Prop := b = space ∨ b = cr ∨ b = lf

/-- The request has the type that its first token names, and is dispatched by that. -/
structure MethodExact (calls : List ParserCall) (inRequest : Bytes) : Prop where
  recognised : ∀ m ∈ fRequestTypes, determineRequestType inRequest = m ↔ methodToken inRequest = m
  otherwise : methodToken inRequest ∉ fRequestTypes → determineRequestType inRequest = []
  get : (HttpParser.after calls).callbacks[determineRequestType inRequest]? =
    some .handleGetRequest ↔ methodToken inRequest = ascii "GET"
  post : (HttpParser.after calls).callbacks[determineRequestType inRequest]? =
    some .handlePostRequest ↔ methodToken inRequest = ascii "POST"

theorem methodToken_isPrefix (inRequest : Bytes) : methodToken inRequest <+: inRequest :=
  (List.takeWhile_prefix _).trans (List.takeWhile_prefix _)

theorem methodToken_append {m : Bytes} (hspace : space ∉ m) (hm : Unbroken m) (s : Bytes) :
    methodToken (m ++ s) = m ++ methodToken s := by
  rw [methodToken, firstLine_append hm, List.takeWhile_append_of_pos]
  · rfl
  · intro b hb
    rw [decide_eq_true_eq]
    rintro rfl
    exact hspace hb

theorem methodToken_cons_eq_nil_iff (b : UInt8) (s : Bytes) :
    methodToken (b :: s) = [] ↔ EndsToken b := by
  rw [methodToken, firstLine, EndsToken]
  by_cases hdot : matchesDot b = true
  · have hne : b ≠ cr ∧ b ≠ lf := by simpa [matchesDot] using hdot
    rw [List.takeWhile_cons_of_pos hdot]
    by_cases hb : b = space
    · rw [List.takeWhile_cons_of_neg (by simp [hb])]
      simp [hb]
    · rw [List.takeWhile_cons_of_pos (by simp [hb])]
      simp [hb, hne]
  · have heq : b = cr ∨ b = lf := by
      by_contra hnot
      rw [not_or] at hnot
      exact hdot (decide_eq_true hnot)
    rw [List.takeWhile_cons_of_neg hdot]
    exact iff_of_true rfl (.inr heq)

theorem methodToken_eq_nil_iff (s : Bytes) :
    methodToken s = [] ↔ ∀ b rest, s = b :: rest → EndsToken b := by
  cases s with
  | nil => exact iff_of_true rfl (by simp)
  | cons b s =>
    rw [methodToken_cons_eq_nil_iff]
    constructor
    · rintro h _ _ ⟨⟩
      exact h
    · exact fun h => h b s rfl

theorem requestTypes_plain : ∀ m ∈ fRequestTypes, space ∉ m ∧ cr ∉ m ∧ lf ∉ m := by decide

/-- A name at the beginning of a request is its first token if a separator follows. -/
theorem methodToken_eq_iff {m : Bytes} (hm : m ∈ fRequestTypes) (s : Bytes) :
    methodToken (m ++ s) = m ↔ ∀ b rest, s = b :: rest → EndsToken b := by
  obtain ⟨hspace, hunbroken⟩ := requestTypes_plain m hm
  rw [methodToken_append hspace hunbroken, List.append_right_eq_self, methodToken_eq_nil_iff]

theorem determineRequestType_mem_or_nil (inRequest : Bytes) :
    determineRequestType inRequest ∈ fRequestTypes ∨ determineRequestType inRequest = [] := by
  rw [determineRequestType]
  cases hfind : fRequestTypes.find? (fun aType => rfind inRequest aType 0 = some 0) with
  | none => exact .inr rfl
  | some m => exact .inl (List.mem_of_find?_eq_some hfind)

theorem new_callbacks_get_iff (k : Bytes) :
    HttpParser.new.callbacks[k]? = some .handleGetRequest ↔ k = ascii "GET" := by
  rw [new_callbacks]
  by_cases hget : k = ascii "GET"
  · simp [hget]
  · rw [if_neg hget]
    refine iff_of_false ?_ hget
    split_ifs <;> simp

theorem new_callbacks_post_iff (k : Bytes) :
    HttpParser.new.callbacks[k]? = some .handlePostRequest ↔ k = ascii "POST" := by
  rw [new_callbacks]
  by_cases hget : k = ascii "GET"
  · rw [if_pos hget, hget]
    exact iff_of_false (by simp) (by decide)
  · rw [if_neg hget]
    by_cases hpost : k = ascii "POST" <;> simp [hpost]

/-- Where every method name at the beginning is a token, the type is the first token. -/
theorem determineRequestType_eq_iff_methodToken {inRequest : Bytes}
    (h : ∀ m ∈ fRequestTypes, ∀ b rest, inRequest = m ++ b :: rest → EndsToken b) {m : Bytes}
    (hm : m ∈ fRequestTypes) : determineRequestType inRequest = m ↔ methodToken inRequest = m := by
  rw [determineRequestType_eq_iff hm]
  constructor
  · rintro ⟨s, rfl⟩
    rw [methodToken_eq_iff hm]
    rintro b rest rfl
    exact h m hm b rest rfl
  · rintro rfl
    exact methodToken_isPrefix inRequest

/-- The method is recognised exactly when no method name at the beginning of the request is
followed by a byte of the same token. -/
theorem methodExact_iff (calls : List ParserCall) (inRequest : Bytes) :
    MethodExact calls inRequest ↔
      ∀ m ∈ fRequestTypes, ∀ b rest, inRequest = m ++ b :: rest → EndsToken b := by
  constructor
  · rintro h m hm b rest rfl
    have htype := (determineRequestType_eq_iff hm _).2 (List.prefix_append m (b :: rest))
    exact (methodToken_eq_iff hm _).1 ((h.recognised m hm).1 htype) b rest rfl
  · intro h
    have hrecognised : ∀ m ∈ fRequestTypes,
        determineRequestType inRequest = m ↔ methodToken inRequest = m :=
      fun m hm => determineRequestType_eq_iff_methodToken h hm
    refine ⟨hrecognised, ?_, ?_, ?_⟩
    · intro hother
      refine (determineRequestType_mem_or_nil inRequest).resolve_left fun hmem => ?_
      rw [(hrecognised _ hmem).1 rfl] at hother
      exact hother hmem
    · rw [callbacks_after, new_callbacks_get_iff, hrecognised _ (by decide)]
    · rw [callbacks_after, new_callbacks_post_iff, hrecognised _ (by decide)]

/-- An unknown method that begins with `GET` is served as one. -/
theorem unknown_method_dispatched :
    ¬ MethodExact [] (ascii "GETX / HTTP/1.1\r\n\r\n") := by
  intro h
  have htype := (determineRequestType_eq_iff (m := ascii "GET") (by decide) _).2
    (by decide : ascii "GET" <+: ascii "GETX / HTTP/1.1\r\n\r\n")
  have htoken := (h.recognised (ascii "GET") (by decide)).1 htype
  exact absurd htoken (by decide)

end Method

end CppWebserver.HttpParserProgram
