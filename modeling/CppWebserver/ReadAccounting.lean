import CppWebserver.SocketReadLoop

/-!
# What the read loop counts, keeps and touches

A loop that is about to read again has received chunks with room for the zero, and
none of them has brought the terminator to the end of what the C strings show. It
has counted all of their bytes and kept the visible ones. One pass more then says
what the loop does to the bytes of a chunk and to the array.
-/

namespace CppWebserver.SocketReadLoop
open ByteStrings DelimitedStreams

/-- The text that the chunks show has not ended with the terminator after any of them. -/
def GoesOn (terminator : Bytes) (cs : List Bytes) : Prop :=
  ∀ p, p <+: cs → p ≠ [] → ¬ terminator <:+ visible p

section Passes

variable {terminator : Bytes}

theorem GoesOn.of_isPrefix {cs ds : List Bytes} (h : GoesOn terminator ds) (hp : cs <+: ds) :
    GoesOn terminator cs :=
  fun p hpre hne => h p (hpre.trans hp) hne

theorem goesOn_concat {cs : List Bytes} {c : Bytes} :
    GoesOn terminator (cs ++ [c]) ↔
      GoesOn terminator cs ∧ ¬ terminator <:+ visible (cs ++ [c]) := by
  constructor
  · intro h
    exact ⟨h.of_isPrefix (List.prefix_append _ _), h _ List.prefix_rfl (by simp)⟩
  · rintro ⟨h, hlast⟩ p hp hne
    rcases List.prefix_concat_iff.mp hp with rfl | hp
    · exact hlast
    · exact h p hp hne

theorem visible_concat (cs : List Bytes) (c : Bytes) :
    visible (cs ++ [c]) = visible cs ++ beforeNull 0 c := by
  simp [visible]

theorem visible_of_notMem {cs : List Bytes} (h : ∀ c ∈ cs, 0 ∉ c) : visible cs = cs.flatten := by
  rw [visible, List.map_congr_left fun c hc => beforeNull_of_notMem (h c hc), List.map_id']

theorem length_visible_le (cs : List Bytes) : (visible cs).length ≤ cs.flatten.length := by
  induction cs with
  | nil => rfl
  | cons c cs ih =>
    have hc : (beforeNull 0 c).length ≤ c.length := (List.takeWhile_prefix _).length_le
    rw [visible, List.map_cons, List.flatten_cons, List.flatten_cons, List.length_append,
      List.length_append]
    exact Nat.add_le_add hc ih

theorem map_bytes_injective : Function.Injective (List.map ReadResult.bytes) :=
  List.map_injective_iff.mpr fun _ _ => ReadResult.bytes.inj

theorem isPrefix_of_concat {as cs : List Bytes} {a c : Bytes} (h : as ++ [a] <+: cs ++ [c]) :
    as <+: cs := by
  have hlength := h.length_le
  rw [List.length_append, List.length_append] at hlength
  apply List.prefix_of_prefix_length_le ((List.prefix_append _ _).trans h) (List.prefix_append _ _)
  exact Nat.le_of_add_le_add_right hlength

theorem short_concat {cs : List Bytes} {c : Bytes} :
    Short (cs ++ [c]) ↔ Short cs ∧ c ≠ [] ∧ c.length ≤ bufSize := by
  rw [Short, List.forall_mem_append, List.forall_mem_singleton]
  rfl

/-- The rest of a loop that has not returned. -/
def ReadOutcome.andThen (terminator : Bytes) : ReadOutcome → List ReadResult → ReadOutcome
  | .returned aStreambuffer unread, results => .returned aStreambuffer (unread ++ results)
  | .waiting buffer aStreambuffer, results => readLoop terminator buffer aStreambuffer results
  | .undefined, _ => .undefined

theorem readLoop_append (buffer : CharBuffer) (aStreambuffer : YStreamBuffer)
    (results results' : List ReadResult) :
    readLoop terminator buffer aStreambuffer (results ++ results') =
      (readLoop terminator buffer aStreambuffer results).andThen terminator results' := by
  induction results generalizing buffer aStreambuffer with
  | nil => rfl
  | cons result results ih =>
    rw [List.cons_append, readLoop, readLoop]
    cases readStep terminator buffer aStreambuffer result with
    | next buffer aStreambuffer => exact ih buffer aStreambuffer
    | stop aStreambuffer => rfl
    | undefined => rfl

/-- A loop that reads again had a chunk with room for the zero, which did not end the text. -/
theorem readStep_eq_next_iff {buffer buffer' : CharBuffer} {s s' : YStreamBuffer}
    {result : ReadResult} :
    readStep terminator buffer s result = .next buffer' s' ↔
      ∃ c, result = .bytes c ∧ c ≠ [] ∧ c.length ≤ bufSize ∧
        ¬ terminator <:+ s.fBufferData ++ beforeNull 0 c ∧ buffer' = .zeroed ∧
        s' = ⟨s.fBytesRead + c.length, s.fBufferData ++ beforeNull 0 c⟩ := by
  constructor
  · intro h
    cases result with
    | failed =>
      rw [readStep_end _ _ _ rfl] at h
      cases h
    | bytes c =>
      by_cases hne : c = []
      · rw [readStep_end _ _ _ (show (ReadResult.bytes c).chunk = [] from hne)] at h
        cases h
      · by_cases hlen : c.length ≤ bufSize
        · rw [readStep_chunk _ _ _ hne hlen] at h
          split at h
          · cases h
          · next ht =>
            cases h
            exact ⟨c, rfl, hne, hlen, ht, rfl, rfl⟩
        · have hfull : bufSize < (ReadResult.bytes c).chunk.length := Nat.lt_of_not_le hlen
          rw [readStep_full _ _ _ hfull] at h
          cases h
  · rintro ⟨c, rfl, hne, hlen, ht, rfl, rfl⟩
    rw [readStep_chunk _ _ _ hne hlen, if_neg ht]

/-- One pass more. -/
theorem handleRead_concat_waiting_iff {buffer buffer' : CharBuffer} {results : List ReadResult}
    {result : ReadResult} {s : YStreamBuffer} :
    handleRead terminator buffer (results ++ [result]) = .waiting buffer' s ↔
      ∃ buffer₀ s₀, handleRead terminator buffer results = .waiting buffer₀ s₀ ∧
        readStep terminator buffer₀ s₀ result = .next buffer' s := by
  rw [handleRead, handleRead, readLoop_append]
  cases readLoop terminator buffer .new results with
  | returned | undefined => simp [ReadOutcome.andThen]
  | waiting buffer₀ s₀ =>
    rw [ReadOutcome.andThen, readLoop]
    cases hstep : readStep terminator buffer₀ s₀ result with
    | next => simp [readLoop, hstep]
    | stop | undefined => simp [hstep]

/-- What a loop that is about to read again has been given, has counted and has kept. -/
theorem handleRead_waiting_iff {buffer : CharBuffer} {results : List ReadResult}
    {s : YStreamBuffer} :
    (∃ buffer', handleRead terminator buffer results = .waiting buffer' s) ↔
      ∃ cs, results = cs.map .bytes ∧ Short cs ∧ GoesOn terminator cs ∧
        s = ⟨cs.flatten.length, visible cs⟩ := by
  induction results using List.reverseRecOn generalizing s with
  | nil =>
    constructor
    · rintro ⟨buffer', h⟩
      cases h
      exact ⟨[], rfl, by simp [Short], by simp [GoesOn], rfl⟩
    · rintro ⟨cs, hcs, -, -, rfl⟩
      obtain rfl : cs = [] := by simpa using hcs
      exact ⟨buffer, rfl⟩
  | append_singleton results result ih =>
    constructor
    · rintro ⟨buffer', h⟩
      obtain ⟨buffer₀, s₀, hloop, hstep⟩ := handleRead_concat_waiting_iff.mp h
      obtain ⟨cs, rfl, hshort, hgoes, rfl⟩ := ih.mp ⟨buffer₀, hloop⟩
      obtain ⟨c, rfl, hne, hlen, ht, -, rfl⟩ := readStep_eq_next_iff.mp hstep
      refine ⟨cs ++ [c], by simp, short_concat.mpr ⟨hshort, hne, hlen⟩,
        goesOn_concat.mpr ⟨hgoes, ?_⟩, ?_⟩
      · rwa [visible_concat]
      · simp [visible_concat]
    · rintro ⟨cs, hcs, hshort, hgoes, rfl⟩
      obtain ⟨cs, c, rfl⟩ : ∃ cs₀ c, cs = cs₀ ++ [c] := by
        rcases List.eq_nil_or_concat cs with rfl | ⟨cs₀, c, rfl⟩
        · simp at hcs
        · exact ⟨cs₀, c, List.concat_eq_append⟩
      rw [List.map_append, List.map_singleton] at hcs
      obtain ⟨rfl, hlast⟩ := List.append_inj' hcs rfl
      obtain rfl : result = .bytes c := by simpa using hlast
      obtain ⟨hshort, hne, hlen⟩ := short_concat.mp hshort
      obtain ⟨hgoes, ht⟩ := goesOn_concat.mp hgoes
      obtain ⟨buffer₀, hloop⟩ := ih.mpr ⟨cs, rfl, hshort, hgoes, rfl⟩
      rw [visible_concat] at ht
      refine ⟨.zeroed, handleRead_concat_waiting_iff.mpr ⟨buffer₀, _, hloop, ?_⟩⟩
      apply readStep_eq_next_iff.mpr
      exact ⟨c, rfl, hne, hlen, ht, rfl, by simp [visible_concat]⟩

end Passes

section Framing

/-- The terminator occurs in the text, and only at its end. -/
def EndsOnce (terminator m : Bytes) : Prop :=
  terminator <:+ m ∧ ∀ a b, m = a ++ (terminator ++ b) → b = []

theorem EndsOnce.ne_nil {terminator m : Bytes} (ht : terminator ≠ []) (h : EndsOnce terminator m) :
    m ≠ [] := by
  rintro rfl
  exact ht (List.suffix_nil.mp h.1)

/-- A beginning that ends with the terminator is the message. -/
theorem EndsOnce.eq_of_isPrefix {terminator m d : Bytes} (h : EndsOnce terminator m)
    (hbegin : d <+: m) (hsuffix : terminator <:+ d) : d = m := by
  obtain ⟨a, rfl⟩ := hsuffix
  obtain ⟨b, hb⟩ := hbegin
  have hnil : b = [] := h.2 a b (by rw [← hb, List.append_assoc])
  rw [← hb, hnil, List.append_nil]

theorem EndsOnce.goesOn {terminator m : Bytes} {cs : List Bytes} {c : Bytes}
    (h : EndsOnce terminator m) (hm : (cs ++ [c]).flatten = m) (hc : c ≠ [])
    (hnul : ∀ c ∈ cs, 0 ∉ c) : GoesOn terminator cs := by
  rintro p ⟨q, rfl⟩ - ⟨a, ha⟩
  rw [visible_of_notMem fun c hc => hnul c (List.mem_append_left _ hc)] at ha
  have hb : q.flatten ++ c = [] := by
    refine h.2 a _ ?_
    rw [← hm, List.flatten_append, List.flatten_append, List.flatten_singleton, ← ha,
      List.append_assoc, List.append_assoc]
  exact hc (List.append_eq_nil_iff.mp hb).2

/-- A message whose terminator comes at its end, in whatever chunks it arrives, is what the
loop returns, with the bytes it counts. The loop takes all of the chunks and no read more. -/
theorem handleRead_message (terminator m : Bytes) (cs : List Bytes) (ht : terminator ≠ [])
    (hm : EndsOnce terminator m) (hnul : 0 ∉ m) (hcs : Segmentation bufSize m cs)
    (buffer : CharBuffer) (results : List ReadResult) :
    handleRead terminator buffer (cs.map .bytes ++ results) =
      .returned ⟨m.length, m⟩ results := by
  obtain ⟨cs, c, rfl⟩ : ∃ cs₀ c, cs = cs₀ ++ [c] := by
    rcases List.eq_nil_or_concat cs with rfl | ⟨cs₀, c, rfl⟩
    · exact absurd hcs.flatten_eq.symm (hm.ne_nil ht)
    · exact ⟨cs₀, c, List.concat_eq_append⟩
  obtain ⟨hshort, hne, hlen⟩ := short_concat.mp (short_of_segmentation hcs)
  have hnulAll : ∀ d ∈ cs ++ [c], 0 ∉ d := by
    intro d hd hz
    exact hnul (hcs.flatten_eq ▸ List.mem_flatten_of_mem hd hz)
  have hnulFront : ∀ d ∈ cs, 0 ∉ d := fun d hd => hnulAll d (List.mem_append_left _ hd)
  have hvisible : visible cs ++ beforeNull 0 c = m := by
    rw [← visible_concat, visible_of_notMem hnulAll, hcs.flatten_eq]
  have hcount : cs.flatten.length + c.length = m.length := by
    rw [← hcs.flatten_eq, List.flatten_append, List.flatten_singleton, List.length_append]
  have hgoes := hm.goesOn hcs.flatten_eq hne hnulFront
  obtain ⟨buffer', hloop⟩ : ∃ buffer', handleRead terminator buffer (cs.map .bytes) =
      .waiting buffer' ⟨cs.flatten.length, visible cs⟩ :=
    handleRead_waiting_iff.mpr ⟨cs, rfl, hshort, hgoes, rfl⟩
  rw [handleRead] at hloop
  rw [List.map_append, List.map_singleton, List.append_assoc, handleRead, readLoop_append, hloop,
    ReadOutcome.andThen, List.singleton_append, readLoop, readStep_chunk _ _ _ hne hlen]
  dsimp only
  rw [hvisible, if_pos hm.1, hcount]

theorem handleRead_message_get :
    handleRead (crlf ++ crlf) .zeroed
        ([ascii "GET / HTTP/1.1\r\n\r", ascii "\n"].map .bytes ++ [.bytes (ascii "GET")]) =
      .returned ⟨18, ascii "GET / HTTP/1.1\r\n\r\n"⟩ [.bytes (ascii "GET")] := by
  refine handleRead_message (crlf ++ crlf) (ascii "GET / HTTP/1.1\r\n\r\n")
    [ascii "GET / HTTP/1.1\r\n\r", ascii "\n"] (by decide) ⟨by decide, ?_⟩ (by decide)
    ⟨by decide, by decide, by decide⟩ .zeroed [.bytes (ascii "GET")]
  have h : ∀ p ∈ (ascii "GET / HTTP/1.1\r\n\r\n").inits, crlf ++ crlf <:+ p →
      p.length = 18 := by decide
  intro a b hab
  have hp : a ++ (crlf ++ crlf) <+: ascii "GET / HTTP/1.1\r\n\r\n" :=
    ⟨b, by rw [hab, List.append_assoc]⟩
  have hlength := h _ ((List.mem_inits _ _).mpr hp) (List.suffix_append _ _)
  have hall := congrArg List.length hab
  rw [← List.append_assoc, List.length_append, hlength] at hall
  exact List.length_eq_zero_iff.mp (Nat.add_left_cancel hall).symm

end Framing

section Accounting

/-- The stream buffer behind the body of the loop. -/
def ReadStep.aStreambuffer : ReadStep → Option YStreamBuffer
  | .next _ aStreambuffer => some aStreambuffer
  | .stop aStreambuffer => some aStreambuffer
  | .undefined => none

/-- Behind every pass of the loop the stream buffer holds the bytes read so far and their
number. -/
def AccountsBytes (terminator : Bytes) (cs : List Bytes) : Prop :=
  ∀ buffer pre c, pre ++ [c] <+: cs → ∀ buffer' s,
    handleRead terminator buffer (pre.map .bytes) = .waiting buffer' s →
    ∃ s', (readStep terminator buffer' s (.bytes c)).aStreambuffer = some s' ∧
      s'.fBufferData = (pre ++ [c]).flatten ∧ s'.fBytesRead = (pre ++ [c]).flatten.length

variable {terminator : Bytes}

theorem aStreambuffer_readStep {c : Bytes} (hne : c ≠ []) (hlen : c.length ≤ bufSize)
    (buffer : CharBuffer) (s : YStreamBuffer) :
    (readStep terminator buffer s (.bytes c)).aStreambuffer =
      some ⟨s.fBytesRead + c.length, s.fBufferData ++ beforeNull 0 c⟩ := by
  rw [readStep_chunk _ _ _ hne hlen]
  split <;> rfl

/-- Behind a pass over a further chunk. -/
theorem pass_after {cs : List Bytes} {c : Bytes} {buffer buffer' : CharBuffer}
    {s : YStreamBuffer} (hne : c ≠ []) (hlen : c.length ≤ bufSize)
    (h : handleRead terminator buffer (cs.map .bytes) = .waiting buffer' s) :
    (readStep terminator buffer' s (.bytes c)).aStreambuffer =
      some ⟨(cs ++ [c]).flatten.length, visible (cs ++ [c])⟩ := by
  obtain ⟨ds, hds, -, -, rfl⟩ := handleRead_waiting_iff.mp ⟨buffer', h⟩
  obtain rfl : cs = ds := map_bytes_injective hds
  rw [aStreambuffer_readStep hne hlen, visible_concat]
  simp

theorem eq_of_visible_eq {cs : List Bytes} {c : Bytes}
    (h : visible (cs ++ [c]) = (cs ++ [c]).flatten) : 0 ∉ c := by
  rw [visible_concat, List.flatten_append, List.flatten_singleton] at h
  have hlength := congrArg List.length h
  have hfront := length_visible_le cs
  have hbegin : beforeNull 0 c <+: c := List.takeWhile_prefix _
  have hle := hbegin.length_le
  rw [List.length_append, List.length_append] at hlength
  have hc : beforeNull 0 c = c := hbegin.eq_of_length (by omega)
  rw [← hc]
  exact takeWhile_notMem 0 c

/-- The loop keeps the bytes it counts exactly if no chunk that it reads has a NUL. -/
theorem accountsBytes_iff (terminator : Bytes) (cs : List Bytes) (hcs : Short cs) :
    AccountsBytes terminator cs ↔
      ∀ pre c, pre ++ [c] <+: cs → GoesOn terminator pre → 0 ∉ c := by
  have hpass : ∀ pre c, pre ++ [c] <+: cs → Short pre ∧ c ≠ [] ∧ c.length ≤ bufSize :=
    fun pre c hp => short_concat.mp fun d hd => hcs d (hp.subset hd)
  constructor
  · intro h pre c hp hgoes
    obtain ⟨hshort, hne, hlen⟩ := hpass pre c hp
    obtain ⟨buffer', hloop⟩ := handleRead_waiting_iff.mpr ⟨pre, rfl, hshort, hgoes, rfl⟩
    obtain ⟨s', hs', hdata, -⟩ := h .zeroed pre c hp buffer' _ hloop
    rw [pass_after hne hlen hloop, Option.some.injEq] at hs'
    subst hs'
    exact eq_of_visible_eq hdata
  · intro h buffer pre c hp buffer' s hloop
    obtain ⟨-, hne, hlen⟩ := hpass pre c hp
    obtain ⟨ds, hds, -, hgoes, -⟩ := handleRead_waiting_iff.mp ⟨buffer', hloop⟩
    obtain rfl : pre = ds := map_bytes_injective hds
    have hnul : ∀ d ∈ pre ++ [c], 0 ∉ d := by
      intro d hd
      obtain ⟨a, b, hab⟩ := List.append_of_mem hd
      have hpd : a ++ [d] <+: pre ++ [c] := ⟨b, by rw [hab, List.append_assoc]; rfl⟩
      exact h a d (hpd.trans hp) (hgoes.of_isPrefix (isPrefix_of_concat hpd))
    refine ⟨_, pass_after hne hlen hloop, visible_of_notMem hnul, rfl⟩

theorem accountsBytes_iff_nul :
    AccountsBytes (crlf ++ crlf) [crlf ++ crlf, [0]] ↔
      ∀ pre c, pre ++ [c] <+: [crlf ++ crlf, [0]] → GoesOn (crlf ++ crlf) pre → 0 ∉ c :=
  accountsBytes_iff (crlf ++ crlf) [crlf ++ crlf, [0]] (by unfold Short; decide)

/-- A NUL hides the rest of its chunk. -/
theorem bytes_behind_nul_dropped : ¬ AccountsBytes (crlf ++ crlf) [[97, 0, 98]] := by
  intro h
  obtain ⟨s', hs', hdata, -⟩ := h .zeroed [] [97, 0, 98] List.prefix_rfl .zeroed .new rfl
  rw [aStreambuffer_readStep (by decide) (by decide), Option.some.injEq] at hs'
  rw [← hs'] at hdata
  exact absurd hdata (by decide)

end Accounting

section Bounds

/-- The indices of the array that one pass of the loop accesses: those at which `read`
stores, that of the zero, and those at which the insertion looks for the first zero. The
`memset` behind them clears the elements of the array. -/
def accesses (buffer : CharBuffer) (chunk : Bytes) : List ℕ :=
  List.range chunk.length ++ chunk.length :: List.range ((beforeNull 0
    ((chunk ++ buffer.bytes.drop chunk.length).set chunk.length 0)).length + 1)

/-- No pass of the loop leaves the array. -/
def IndicesInBounds (terminator : Bytes) (results : List ReadResult) : Prop :=
  ∀ buffer done result, done ++ [result] <+: results → ∀ buffer' s,
    handleRead terminator buffer done = .waiting buffer' s → result.bytesRead > 0 →
    ∀ i ∈ accesses buffer' result.chunk, i < bufSize + 1

theorem length_beforeNull_lt {s : Bytes} (h : 0 ∈ s) : (beforeNull 0 s).length < s.length := by
  have hbegin : beforeNull 0 s <+: s := List.takeWhile_prefix _
  refine lt_of_le_of_ne hbegin.length_le fun heq => ?_
  rw [← hbegin.eq_of_length heq] at h
  exact takeWhile_notMem 0 s h

/-- The zero behind a chunk that leaves room for it is the last that is looked at. -/
theorem forall_accesses_iff (buffer : CharBuffer) (chunk : Bytes) :
    (∀ i ∈ accesses buffer chunk, i < bufSize + 1) ↔ chunk.length ≤ bufSize := by
  constructor
  · intro h
    exact Nat.le_of_lt_succ (h chunk.length (by simp [accesses]))
  · intro hlen i hi
    have hlength : ((chunk ++ buffer.bytes.drop chunk.length).set chunk.length 0).length =
        bufSize + 1 := by
      rw [List.length_set, List.length_append, List.length_drop, buffer.length_eq]
      omega
    have hzero : (0 : UInt8) ∈ (chunk ++ buffer.bytes.drop chunk.length).set chunk.length 0 := by
      refine List.mem_set ?_ _
      rw [List.length_append, List.length_drop, buffer.length_eq]
      omega
    have hscan := length_beforeNull_lt hzero
    rw [hlength] at hscan
    simp only [accesses, List.mem_append, List.mem_cons, List.mem_range] at hi
    omega

theorem bytesRead_pos_iff (result : ReadResult) : result.bytesRead > 0 ↔ result.chunk ≠ [] := by
  cases result with
  | bytes chunk => simp [ReadResult.bytesRead, ReadResult.chunk, List.length_pos_iff]
  | failed => simp [ReadResult.bytesRead, ReadResult.chunk]

theorem eq_map_bytes {results : List ReadResult} (h : ∀ r ∈ results, r.chunk ≠ []) :
    results = (results.map ReadResult.chunk).map .bytes := by
  induction results with
  | nil => rfl
  | cons result results ih =>
    rw [List.map_cons, List.map_cons, ← ih fun r hr => h r (List.mem_cons_of_mem _ hr)]
    cases result with
    | bytes chunk => rfl
    | failed => exact absurd rfl (h .failed List.mem_cons_self)

section Passes

variable {results done : List ReadResult} {result : ReadResult}

/-- A loop that has gone on within the array reads no more than `BUFSIZE` bytes. -/
theorem IndicesInBounds.length_le (h : IndicesInBounds terminator results)
    (hp : done ++ [result] <+: results) (hne : ∀ r ∈ done, r.chunk ≠ [])
    (hgoes : GoesOn terminator (done.map ReadResult.chunk))
    (hshort : Short (done.map ReadResult.chunk)) : result.chunk.length ≤ bufSize := by
  by_cases hresult : result.chunk = []
  · rw [hresult]
    exact Nat.zero_le _
  · obtain ⟨buffer', hloop⟩ :=
      handleRead_waiting_iff.mpr ⟨_, eq_map_bytes hne, hshort, hgoes, rfl⟩
    apply (forall_accesses_iff buffer' result.chunk).mp
    exact h .zeroed done result hp buffer' _ hloop ((bytesRead_pos_iff result).mpr hresult)

/-- By induction on the reads: each one leaves room for the zero, so the loop goes on within
the array. -/
theorem IndicesInBounds.short (h : IndicesInBounds terminator results) (hp : done <+: results)
    (hne : ∀ r ∈ done, r.chunk ≠ []) (hgoes : GoesOn terminator (done.map ReadResult.chunk)) :
    Short (done.map ReadResult.chunk) := by
  induction done using List.reverseRecOn with
  | nil => simp [Short]
  | append_singleton done result ih =>
    rw [List.map_append, List.map_singleton] at hgoes ⊢
    have hgoes' := (goesOn_concat.mp hgoes).1
    have hne' : ∀ r ∈ done, r.chunk ≠ [] := fun r hr => hne r (List.mem_append_left _ hr)
    have hdone := ih ((List.prefix_append _ _).trans hp) hne' hgoes'
    exact short_concat.mpr ⟨hdone, hne result (by simp), h.length_le hp hne' hgoes' hdone⟩

end Passes

/-- All accesses are inside the array exactly if no call of `read` fills it as long as the
loop goes on. -/
theorem indicesInBounds_iff (terminator : Bytes) (results : List ReadResult) :
    IndicesInBounds terminator results ↔
      ∀ done result, done ++ [result] <+: results → (∀ r ∈ done, r.chunk ≠ []) →
        GoesOn terminator (done.map ReadResult.chunk) → result.chunk.length ≤ bufSize := by
  constructor
  · intro h done result hp hne hgoes
    apply h.length_le hp hne hgoes
    exact h.short ((List.prefix_append _ _).trans hp) hne hgoes
  · intro h buffer done result hp buffer' s hloop _
    obtain ⟨cs, rfl, hshort, hgoes, -⟩ := handleRead_waiting_iff.mp ⟨buffer', hloop⟩
    have hgoes' : GoesOn terminator ((cs.map ReadResult.bytes).map ReadResult.chunk) := by
      rw [List.map_map]
      exact (List.map_id cs).symm ▸ hgoes
    have hne : ∀ r ∈ cs.map ReadResult.bytes, r.chunk ≠ [] := by
      intro r hr
      obtain ⟨c, hc, rfl⟩ := List.mem_map.mp hr
      exact (hshort c hc).1
    exact (forall_accesses_iff buffer' result.chunk).mpr (h _ result hp hne hgoes')

/-- A client that has sent more than `BUFSIZE` bytes at the first read. -/
theorem full_read_out_of_bounds :
    ¬ IndicesInBounds (crlf ++ crlf) [.bytes (List.replicate 4097 97)] := by
  intro h
  have hlength : (ReadResult.bytes (List.replicate 4097 97)).chunk.length = 4097 :=
    List.length_replicate
  have hne : (ReadResult.bytes (List.replicate 4097 97)).chunk ≠ [] := by
    rw [← List.length_pos_iff, hlength]
    decide
  have hall := h .zeroed [] (.bytes (List.replicate 4097 97)) List.prefix_rfl .zeroed .new rfl
    ((bytesRead_pos_iff _).mpr hne)
  rw [forall_accesses_iff, hlength] at hall
  exact absurd hall (by decide)

end Bounds

end CppWebserver.SocketReadLoop
