import CppWebserver.ByteStrings
import CppWebserver.SegmentationIndependence

/-!
# The read loop of `SocketIPv4`

`HandleRead` reads into an array on its stack, writes a zero behind what it has
received and inserts the array into a stream as a C string. An access outside the
array has no defined behaviour. As long as reads are short enough for the zero,
the loop is a lossy reader of a delimited stream.
-/

namespace CppWebserver.SocketReadLoop
open ByteStrings DelimitedStreams

/-- `BUFSIZE`. -/
def bufSize : ℕ := 4096

/-- `char buffer[BUFSIZE + 1]`. -/
structure CharBuffer where
  bytes : Bytes
  length_eq : bytes.length = bufSize + 1

/-- `memset(buffer, 0, BUFSIZE + 1)`. -/
def CharBuffer.zeroed : CharBuffer where
  bytes := List.replicate (bufSize + 1) 0
  length_eq := List.length_replicate

/-- The bytes a read stores at the beginning of the array, if they fit. -/
def CharBuffer.receive (buffer : CharBuffer) (chunk : Bytes) : Option CharBuffer :=
  if h : chunk.length ≤ bufSize + 1 then
    some ⟨chunk ++ buffer.bytes.drop chunk.length, by
      rw [List.length_append, List.length_drop, buffer.length_eq]
      omega⟩
  else none

/-- `buffer[i] = b`. -/
def CharBuffer.store (buffer : CharBuffer) (i : ℕ) (b : UInt8) : Option CharBuffer :=
  if i < bufSize + 1 then some ⟨buffer.bytes.set i b, by rw [List.length_set, buffer.length_eq]⟩
  else none

/-- The array as a C string, if there is a zero in it. -/
def CharBuffer.cString (buffer : CharBuffer) : Option Bytes :=
  if 0 ∈ buffer.bytes then some (beforeNull 0 buffer.bytes) else none

/-- What a call of `read` gives: bytes, none of them at the end of the stream, or
an error. -/
inductive ReadResult where
  | bytes (chunk : Bytes)
  | failed
  deriving DecidableEq

def ReadResult.bytesRead : ReadResult → ℤ
  | .bytes chunk => chunk.length
  | .failed => -1

def ReadResult.chunk : ReadResult → Bytes
  | .bytes chunk => chunk
  | .failed => []

structure YStreamBuffer where
  fBytesRead : ℕ
  fBufferData : Bytes
  deriving DecidableEq

def YStreamBuffer.new : YStreamBuffer := ⟨0, []⟩

def endsWith (str suffix : Bytes) : Bool :=
  decide (suffix.length ≤ str.length) &&
    decide ((str.drop (str.length - suffix.length)).take suffix.length = suffix)

/-- What one call of `read` makes of the loop. -/
inductive ReadStep where
  | next (buffer : CharBuffer) (aStreambuffer : YStreamBuffer)
  | stop (aStreambuffer : YStreamBuffer)
  | undefined

/-- One evaluation of the loop condition and, if it holds, of the body. -/
def readStep (terminator : Bytes) (buffer : CharBuffer) (aStreambuffer : YStreamBuffer)
    (result : ReadResult) : ReadStep :=
  if result.bytesRead > 0 then
    match (do
      let buffer ← buffer.receive result.chunk
      let buffer ← buffer.store result.bytesRead.toNat 0
      buffer.cString) with
    | none => .undefined
    | some text =>
      let aStreambuffer :=
        ⟨aStreambuffer.fBytesRead + result.bytesRead.toNat, aStreambuffer.fBufferData ++ text⟩
      if endsWith aStreambuffer.fBufferData terminator then .stop aStreambuffer
      else .next .zeroed aStreambuffer
  else .stop aStreambuffer

/-- Where the loop is after a number of reads. -/
inductive ReadOutcome where
  | returned (aStreambuffer : YStreamBuffer) (unread : List ReadResult)
  | waiting (buffer : CharBuffer) (aStreambuffer : YStreamBuffer)
  | undefined

def readLoop (terminator : Bytes) (buffer : CharBuffer) (aStreambuffer : YStreamBuffer) :
    List ReadResult → ReadOutcome
  | [] => .waiting buffer aStreambuffer
  | result :: results => match readStep terminator buffer aStreambuffer result with
    | .next buffer aStreambuffer => readLoop terminator buffer aStreambuffer results
    | .stop aStreambuffer => .returned aStreambuffer results
    | .undefined => .undefined

/-- `SocketIPv4::HandleRead`, whose array begins with whatever was on the stack. -/
def handleRead (terminator : Bytes) (buffer : CharBuffer) (results : List ReadResult) :
    ReadOutcome :=
  readLoop terminator buffer .new results

/-- The data of a loop that has returned. -/
def ReadOutcome.data : ReadOutcome → Option Bytes
  | .returned aStreambuffer _ => some aStreambuffer.fBufferData
  | _ => none

theorem endsWith_iff (str suffix : Bytes) : endsWith str suffix = true ↔ suffix <:+ str := by
  simp only [endsWith, Bool.and_eq_true, decide_eq_true_eq]
  constructor
  · rintro ⟨hlen, htake⟩
    rw [List.take_of_length_le (by rw [List.length_drop]; omega)] at htake
    rw [← htake]
    exact List.drop_suffix _ _
  · rintro ⟨t, rfl⟩
    simp

/-- The zero behind a short chunk cuts the array where the chunk ends, or before. -/
theorem cString_of_chunk (buffer : CharBuffer) {chunk : Bytes} (h : chunk.length ≤ bufSize) :
    (do
      let buffer ← buffer.receive chunk
      let buffer ← buffer.store chunk.length 0
      buffer.cString) = some (beforeNull 0 chunk) := by
  have hset : (chunk ++ buffer.bytes.drop chunk.length).set chunk.length 0 =
      chunk ++ 0 :: buffer.bytes.drop (chunk.length + 1) := by
    have hlt : chunk.length < buffer.bytes.length := by rw [buffer.length_eq]; omega
    rw [List.set_append_right _ _ le_rfl, Nat.sub_self, List.drop_eq_getElem_cons hlt,
      List.set_cons_zero]
  have hmem : (0 : UInt8) ∈ chunk ++ 0 :: buffer.bytes.drop (chunk.length + 1) := by simp
  have hcut : beforeNull 0 (chunk ++ 0 :: buffer.bytes.drop (chunk.length + 1)) =
      beforeNull 0 chunk := by
    by_cases hz : (0 : UInt8) ∈ chunk
    · rw [beforeNull, List.takeWhile_append, if_neg]
      · rfl
      · intro hlen
        have := List.takeWhile_eq_self_iff.mp
          ((List.takeWhile_prefix _).eq_of_length hlen) 0 hz
        simp at this
    · rw [beforeNull_append hz, beforeNull_null, List.append_nil, beforeNull_of_notMem hz]
  simp only [CharBuffer.receive, CharBuffer.store, CharBuffer.cString, dif_pos (Nat.le_succ_of_le h),
    Option.bind_eq_bind, Option.bind_some, if_pos (Nat.lt_succ_of_le h), hset, if_pos hmem, hcut]

/-- A read that fills the whole array has no room for the zero. -/
theorem store_after_full_chunk (buffer : CharBuffer) {chunk : Bytes} (h : bufSize < chunk.length) :
    (do
      let buffer ← buffer.receive chunk
      let buffer ← buffer.store chunk.length 0
      buffer.cString) = none := by
  rw [CharBuffer.receive]
  split
  · simp only [Option.bind_eq_bind, Option.bind_some, CharBuffer.store,
      if_neg (by omega : ¬ chunk.length < bufSize + 1), Option.bind_none]
  · rfl

section Steps

variable (terminator : Bytes) (buffer : CharBuffer) (aStreambuffer : YStreamBuffer)

theorem readStep_chunk {chunk : Bytes} (hne : chunk ≠ []) (h : chunk.length ≤ bufSize) :
    readStep terminator buffer aStreambuffer (.bytes chunk) =
      if terminator <:+ aStreambuffer.fBufferData ++ beforeNull 0 chunk then
        .stop ⟨aStreambuffer.fBytesRead + chunk.length,
          aStreambuffer.fBufferData ++ beforeNull 0 chunk⟩
      else .next .zeroed ⟨aStreambuffer.fBytesRead + chunk.length,
          aStreambuffer.fBufferData ++ beforeNull 0 chunk⟩ := by
  have hpos : (ReadResult.bytes chunk).bytesRead > 0 := by
    have := List.length_pos_iff.mpr hne
    simp only [ReadResult.bytesRead]
    omega
  rw [readStep, if_pos hpos]
  simp only [ReadResult.bytesRead, ReadResult.chunk, Int.toNat_natCast, cString_of_chunk buffer h,
    endsWith_iff]

theorem readStep_full {result : ReadResult} (h : bufSize < result.chunk.length) :
    readStep terminator buffer aStreambuffer result = .undefined := by
  cases result with
  | failed => cases h
  | bytes chunk =>
    change bufSize < chunk.length at h
    have hpos : (ReadResult.bytes chunk).bytesRead > 0 := by
      simp only [ReadResult.bytesRead]
      omega
    rw [readStep, if_pos hpos]
    simp only [ReadResult.bytesRead, ReadResult.chunk, Int.toNat_natCast,
      store_after_full_chunk buffer h]

theorem readStep_end {result : ReadResult} (h : result.chunk = []) :
    readStep terminator buffer aStreambuffer result = .stop aStreambuffer := by
  cases result with
  | bytes chunk =>
    obtain rfl : chunk = [] := h
    rfl
  | failed => rfl

end Steps

/-- The chunks of a stream, none of them empty and each with room for the zero. -/
def Short (cs : List Bytes) : Prop := ∀ c ∈ cs, c ≠ [] ∧ c.length ≤ bufSize

theorem short_of_segmentation {s : Bytes} {cs : List Bytes} (h : Segmentation bufSize s cs) :
    Short cs := fun c hc => ⟨h.nonempty c hc, h.length_le c hc⟩

/-- The part of the chunks that the C strings show. -/
def visible (cs : List Bytes) : Bytes := (cs.map (beforeNull 0)).flatten

/-- As long as the terminator has not been seen at the end of a chunk, the loop goes on. -/
theorem readLoop_of_open {terminator acc : Bytes} {cs : List Bytes} (hcs : Short cs)
    (h : (gather terminator ⟨acc, false⟩ (cs.map (beforeNull 0))).closed = false)
    (buffer : CharBuffer) (n : ℕ) (results : List ReadResult) :
    ∃ buffer', readLoop terminator buffer ⟨n, acc⟩ (cs.map .bytes ++ results) =
      readLoop terminator buffer' ⟨n + cs.flatten.length, acc ++ visible cs⟩ results := by
  induction cs generalizing acc buffer n with
  | nil => exact ⟨buffer, by simp [visible]⟩
  | cons c cs ih =>
    obtain ⟨hne, hlen⟩ := hcs c List.mem_cons_self
    rw [List.map_cons, gather_cons, add_of_open] at h
    by_cases ht : terminator <:+ acc ++ beforeNull 0 c
    · rw [decide_eq_true ht, gather_of_closed terminator rfl] at h
      cases h
    · rw [decide_eq_false ht] at h
      obtain ⟨buffer', ih⟩ := ih (fun d hd => hcs d (List.mem_cons_of_mem _ hd)) h .zeroed
        (n + c.length)
      refine ⟨buffer', ?_⟩
      rw [List.map_cons, List.cons_append, readLoop, readStep_chunk _ _ _ hne hlen, if_neg ht]
      simpa [visible, Nat.add_assoc] using ih

/-- The loop returns with the first chunk that brings the terminator to the end. -/
theorem readLoop_of_closed {terminator acc : Bytes} {cs : List Bytes} (hcs : Short cs)
    (h : (gather terminator ⟨acc, false⟩ (cs.map (beforeNull 0))).closed = true)
    (buffer : CharBuffer) (n : ℕ) (results : List ReadResult) :
    ∃ k, readLoop terminator buffer ⟨n, acc⟩ (cs.map .bytes ++ results) =
      .returned ⟨n + (cs.take k).flatten.length,
        (gather terminator ⟨acc, false⟩ (cs.map (beforeNull 0))).text⟩
        ((cs.drop k).map .bytes ++ results) := by
  induction cs generalizing acc buffer n with
  | nil => cases h
  | cons c cs ih =>
    obtain ⟨hne, hlen⟩ := hcs c List.mem_cons_self
    have hstep : gather terminator ⟨acc, false⟩ ((c :: cs).map (beforeNull 0)) =
        gather terminator ⟨acc ++ beforeNull 0 c, decide (terminator <:+ acc ++ beforeNull 0 c)⟩
          (cs.map (beforeNull 0)) := by
      rw [List.map_cons, gather_cons, add_of_open]
    rw [hstep] at h ⊢
    rw [List.map_cons, List.cons_append, readLoop, readStep_chunk _ _ _ hne hlen]
    by_cases ht : terminator <:+ acc ++ beforeNull 0 c
    · refine ⟨1, ?_⟩
      rw [if_pos ht, decide_eq_true ht, gather_of_closed terminator rfl]
      simp
    · rw [decide_eq_false ht] at h ⊢
      obtain ⟨k, ih⟩ := ih (fun d hd => hcs d (List.mem_cons_of_mem _ hd)) h .zeroed (n + c.length)
      refine ⟨k + 1, ?_⟩
      rw [if_neg ht]
      simpa [Nat.add_assoc] using ih

/-- The loop reads a stream that the client closes as the lossy reader does. -/
theorem data_handleRead_closed_stream {terminator s : Bytes} {cs : List Bytes}
    (hcs : Segmentation bufSize s cs) (buffer : CharBuffer) :
    (handleRead terminator buffer (cs.map .bytes ++ [.bytes []])).data =
      some (received 0 terminator cs).text := by
  have hshort := short_of_segmentation hcs
  cases hc : (received 0 terminator cs).closed with
  | false =>
    obtain ⟨buffer', h⟩ := readLoop_of_open hshort hc buffer 0 [.bytes []]
    rw [handleRead, YStreamBuffer.new, h, received_text_of_open hc]
    rfl
  | true =>
    obtain ⟨k, h⟩ := readLoop_of_closed hshort hc buffer 0 [.bytes []]
    rw [handleRead, YStreamBuffer.new, h]
    rfl

/-- Every two cuts of a stream into reads, up to the end of the stream, give the
same data, whatever was on the stack. -/
def ReadAlike (terminator s : Bytes) : Prop :=
  ∀ cs ds, Segmentation bufSize s cs → Segmentation bufSize s ds →
    ∀ buffer buffer', ∃ data,
      (handleRead terminator buffer (cs.map .bytes ++ [.bytes []])).data = some data ∧
        (handleRead terminator buffer' (ds.map .bytes ++ [.bytes []])).data = some data

/-- `HandleRead` is independent of the cut exactly on the self-delimiting streams. -/
theorem readAlike_iff {terminator : Bytes} (ht : terminator ≠ []) (s : Bytes) :
    ReadAlike terminator s ↔ SelfDelimiting 0 terminator s := by
  rw [← segmentationIndependent_iff (n := bufSize) ht (by decide)]
  constructor
  · intro h cs ds hcs hds
    obtain ⟨data, hc, hd⟩ := h cs ds hcs hds .zeroed .zeroed
    rw [data_handleRead_closed_stream hcs, Option.some_inj] at hc
    rw [data_handleRead_closed_stream hds, Option.some_inj] at hd
    rw [hc, hd]
  · intro h cs ds hcs hds buffer buffer'
    refine ⟨(received 0 terminator cs).text, data_handleRead_closed_stream hcs buffer, ?_⟩
    rw [data_handleRead_closed_stream hds, h cs ds hcs hds]

/-- A request that ends with its blank line. -/
theorem readAlike_get :
    ReadAlike (crlf ++ crlf) (ascii "GET / HTTP/1.1\r\n\r\n") := by
  refine (readAlike_iff (by decide) _).mpr ⟨?_, .inl (by decide)⟩
  have h : ∀ p ∈ (ascii "GET / HTTP/1.1\r\n\r\n").inits, crlf ++ crlf <:+ p →
      p = ascii "GET / HTTP/1.1\r\n\r\n" := by decide
  exact fun p hp => h p ((List.mem_inits p _).mpr hp)

/-- A request with a body comes without it when the body is in a chunk of its own. -/
theorem not_readAlike_post :
    ¬ ReadAlike (crlf ++ crlf) (ascii "POST /test HTTP/1.1\r\n\r\nx=1") := by
  intro h
  have hone : Segmentation bufSize (ascii "POST /test HTTP/1.1\r\n\r\nx=1")
      [ascii "POST /test HTTP/1.1\r\n\r\nx=1"] := ⟨by decide, by decide, by decide⟩
  have htwo : Segmentation bufSize (ascii "POST /test HTTP/1.1\r\n\r\nx=1")
      [ascii "POST /test HTTP/1.1\r\n\r\n", ascii "x=1"] := ⟨by decide, by decide, by decide⟩
  obtain ⟨data, h1, h2⟩ := h _ _ hone htwo .zeroed .zeroed
  rw [data_handleRead_closed_stream hone] at h1
  rw [data_handleRead_closed_stream htwo, ← h1] at h2
  exact absurd h2 (by decide)

/-- The chunks before the first read that ends the stream, fails or fills the array. -/
def leadingChunks : List ReadResult → List Bytes
  | .bytes chunk :: results =>
    if chunk ≠ [] ∧ chunk.length ≤ bufSize then chunk :: leadingChunks results else []
  | _ => []

theorem short_leadingChunks (results : List ReadResult) : Short (leadingChunks results) := by
  induction results with
  | nil => simp [Short, leadingChunks]
  | cons result results ih =>
    cases result with
    | failed => simp [Short, leadingChunks]
    | bytes chunk =>
      rw [leadingChunks]
      split
      · next h =>
        intro c hc
        rcases List.mem_cons.mp hc with rfl | hc
        · exact h
        · exact ih c hc
      · simp [Short]

/-- What comes after the leading chunks, if anything, begins with another kind of read. -/
theorem exists_append_leadingChunks (results : List ReadResult) :
    ∃ rest, results = (leadingChunks results).map .bytes ++ rest ∧
      ∀ result ∈ rest.head?, result.chunk = [] ∨ bufSize < result.chunk.length := by
  induction results with
  | nil => exact ⟨[], rfl, by simp⟩
  | cons result results ih =>
    cases result with
    | failed => exact ⟨.failed :: results, rfl, by simp [ReadResult.chunk]⟩
    | bytes chunk =>
      rw [leadingChunks]
      split
      · obtain ⟨rest, hrest, hhead⟩ := ih
        exact ⟨rest, by rw [List.map_cons, List.cons_append, ← hrest], hhead⟩
      · next h =>
        refine ⟨.bytes chunk :: results, rfl, ?_⟩
        rintro result ⟨⟩
        simp only [ReadResult.chunk]
        by_cases hnil : chunk = []
        · exact .inl hnil
        · exact .inr (by simpa [hnil] using h)

/-- The terminator ends what some of the leading chunks show, or all reads are such chunks. -/
def TerminatedInTime (terminator : Bytes) (results : List ReadResult) : Prop :=
  (∃ k, terminator <:+ visible ((leadingChunks results).take k)) ∨
    results = (leadingChunks results).map .bytes

/-- If the loop returns, its data end with the terminator, and its behaviour is defined. -/
def ReadOutcome.Complete (terminator : Bytes) : ReadOutcome → Prop
  | .returned aStreambuffer _ => terminator <:+ aStreambuffer.fBufferData
  | .waiting _ _ => True
  | .undefined => False

theorem received_closed_iff {terminator : Bytes} (ht : terminator ≠ []) (cs : List Bytes) :
    (received 0 terminator cs).closed = true ↔ ∃ k, terminator <:+ visible (cs.take k) := by
  have hnil : ¬ terminator <:+ [] := by simpa using ht
  rw [received, Gathering.start, gather_closed_iff hnil]
  simp [visible, List.map_take]

/-- A loop returns complete data exactly when the terminator comes in time. -/
theorem complete_handleRead_iff {terminator : Bytes} (ht : terminator ≠ []) (buffer : CharBuffer)
    (results : List ReadResult) :
    (handleRead terminator buffer results).Complete terminator ↔
      TerminatedInTime terminator results := by
  have hshort := short_leadingChunks results
  obtain ⟨rest, hrest, hhead⟩ := exists_append_leadingChunks results
  rw [TerminatedInTime, ← received_closed_iff ht]
  generalize leadingChunks results = cs at *
  subst hrest
  cases hc : (received 0 terminator cs).closed with
  | true =>
    obtain ⟨k, hloop⟩ := readLoop_of_closed hshort hc buffer 0 rest
    have hfaithful : (received 0 terminator cs).Faithful terminator :=
      faithful_gather (faithful_start ht) _
    rw [handleRead, YStreamBuffer.new, hloop]
    exact ⟨fun _ => .inl rfl, fun _ => hfaithful.1 hc⟩
  | false =>
    obtain ⟨buffer', hloop⟩ := readLoop_of_open hshort hc buffer 0 rest
    rw [handleRead, YStreamBuffer.new, hloop]
    cases rest with
    | nil => simp [readLoop, ReadOutcome.Complete]
    | cons result rest =>
      have hright : ¬ (false = true ∨
          cs.map ReadResult.bytes ++ result :: rest = cs.map .bytes) := by simp
      refine ⟨fun hcomplete => ?_, fun h => absurd h hright⟩
      rcases hhead result rfl with hend | hfull
      · rw [readLoop, readStep_end _ _ _ hend] at hcomplete
        exact absurd hcomplete (not_suffix_of_open ht hc)
      · rw [readLoop, readStep_full _ _ _ hfull] at hcomplete
        exact hcomplete.elim

end CppWebserver.SocketReadLoop
