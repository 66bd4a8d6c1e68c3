import S3EncryptionGateway.Library.TransitionSystem
import S3EncryptionGateway.Api.AwsTrailers

/-!
# Streaming uploads in signed chunks

In the streaming modes of the protocol a body comes as a sequence of chunks.  Each has a header
with its size and its signature; the signature covers the signature of the chunk before, so the
chunks form a chain that begins with the signature of the request's headers.  The body ends with
an empty chunk, possibly followed by trailers.

`verifyAWSChunked` reads such a body.  A chunk is first staged in a file of its own, and copied
to the destination when its signature was found to be right.

## The verifier as a machine

The verifier is modelled as a transition system whose steps are the reads and writes of the
code, so that its states are the moments at which something can be observed.  The actions say how
the surroundings behave: whether the request is cancelled, a temporary file fails, the signing
context is closed, how much of the staged chunk a read returns and whether the destination
accepts it.

`Invariant` says what holds at every moment, phase by phase.  It names the chunks that were
verified so far: they are the front of the stream and form a chain, and the destination holds all
of them, except that of the last one only a front may be there.  `invariant_step` is its step
lemma; each phase has a lemma of its own.
-/

namespace S3EncryptionGateway.Api.AwsChunked

open Text Encoding Streams List

def maxAwsChunkHeaderBytes : ℕ := 8192
def maxAwsChunkBytes : ℕ := 67108864

/-- The size of the buffer that chunks are copied with. -/
def copyBuffer : ℕ := 32768

/-! ## Chunk headers -/

def chunkMarker : Str := ";chunk-signature=".toList

/-- The first place at which `sub` occurs. -/
def indexByteString (sub : Str) : Str → Option ℕ
  | [] => if sub = [] then some 0 else none
  | c :: rest => if sub <+: c :: rest then some 0 else (indexByteString sub rest).map (· + 1)

namespace Upload

variable (upload : Upload)

def hasTrailers : Bool :=
  upload.mode = .signedPayloadTrailer ∨ upload.mode = .unsignedPayloadTrailer

/-- Only the two signed modes have signatures in the headers. -/
def verifiesChunks : Bool :=
  upload.signing.any fun c => c.mode ≠ .unsignedPayloadTrailer

/-- The size and the signature of a header with the marker at `i`. -/
def splitSigned (line : Str) (i : ℕ) : Option (Str × Str) :=
  let supplied := line.drop (i + chunkMarker.length)
  if i < 1 ∨ ';' ∈ supplied ∨ validLowerHex supplied 64 = false then none
  else some (line.take i, supplied)

/-- The size and the signature of a header.  Without a signing context a signature is read but
not kept. -/
def splitHeader (line : Str) : Option (Str × Str) :=
  if upload.verifiesChunks then (indexByteString chunkMarker line).bind (splitSigned line)
  else
    match upload.signing, indexByteString chunkMarker line with
    | none, some (i + 1) => (splitSigned line (i + 1)).map fun header => (header.1, [])
    | _, _ => if ';' ∈ line then none else some (line, [])

def parseChunkSize (sizeText : Str) : Option ℕ :=
  if sizeText.length = 0 ∨ 16 < sizeText.length then none
  else if 1 < sizeText.length ∧ sizeText.head? = some '0' then none
  else if validLowerHex sizeText sizeText.length then some (hexNumber sizeText)
  else none

/-- The size and the signature of a chunk, from the line of its header. -/
def parseChunkHeader (line : Str) : Option (ℕ × Str) :=
  if line.length < 3 ∨ ¬crlfText <:+ line then none
  else do
    let (sizeText, supplied) ← upload.splitHeader (line.take (line.length - 2))
    let size ← parseChunkSize sizeText
    return (size, supplied)

end Upload

/-! ## The verifier -/

inductive Phase where
  /-- Before the header of a chunk. -/
  | header
  /-- Reading a chunk of `size` bytes into a file of its own. -/
  | staging (size : ℕ) (supplied : Str) (staged : Bytes)
  /-- Copying a verified chunk to the destination, with `rest` still to be copied. -/
  | copying (size : ℕ) (rest : Bytes)
  | ended (result : Except StreamingError Unit)
  deriving DecidableEq

structure State where
  input : Buffered UInt8 BodyError
  /-- The signature of the chunk before. -/
  previous : Bytes
  total : ℕ
  /-- What the destination was given. -/
  dst : Bytes
  phase : Phase

/-- How the surroundings behave in a step. -/
inductive Event where
  | proceed
  | canceled
  /-- An operation on a temporary file fails. -/
  | spoolFails
  | signingCloses
  /-- A read of the staged chunk returns `count` bytes, and the destination takes them. -/
  | copied (count : ℕ)
  /-- The destination takes only some of them and fails. -/
  | writeFails (count accepted : ℕ)

def State.fail (s : State) (err : StreamingError) : State := { s with phase := .ended (.error err) }

/-- Behind the empty chunk there may be an end of line, and nothing else. -/
def checkEnd (input : Buffered UInt8 BodyError) : Except StreamingError Unit :=
  if input = ⟨[], .eof⟩ ∨ input = ⟨crlf, .eof⟩ then .ok () else .error .trailingData

def expectCrlf (input : Buffered UInt8 BodyError) : Option (Buffered UInt8 BodyError) :=
  match input.data with
  | a :: b :: rest => if a = 13 ∧ b = 10 then some ⟨rest, input.ending⟩ else none
  | _ => none

section Verifier

variable (hashes : Hashes) (upload : Upload)

/-- The signature of a chunk is the next one of the chain. -/
def signatureMatches (previous : Bytes) (supplied : Str) (dataHash : Bytes) (closed : Bool) :
    Bool :=
  match upload.signing with
  | none => false
  | some c =>
    validLowerHex supplied 64 ∧ closed = false ∧ c.signingKey ≠ [] ∧
      c.chunkSignature hashes previous dataHash = decodeHex supplied

/-- The end of the chunks: the length, and what is behind the empty chunk. -/
def endChunks (s : State) : State :=
  if 0 ≤ upload.decodedLength ∧ (s.total : ℤ) ≠ upload.decodedLength then
    s.fail (if (s.total : ℤ) < upload.decodedLength then .incompleteBody else .length)
  else if upload.hasTrailers then { s with phase := .ended (.ok ()) }
  else { s with phase := .ended (checkEnd s.input) }

/-- Behind the header of a chunk.  An empty chunk has nothing but the header. -/
def openChunk (closed : Bool) (s : State) (size : ℕ) (supplied : Str) : State :=
  if size = 0 then
    if upload.verifiesChunks then
      if signatureMatches hashes upload s.previous supplied (hashes.sha256 []) closed then
        endChunks upload { s with previous := decodeHex supplied }
      else s.fail .signatureMismatch
    else endChunks upload s
  else if maxAwsChunkBytes < size then s.fail .length
  else if 0 ≤ upload.decodedLength ∧ upload.decodedLength - s.total < size then s.fail .length
  else { s with phase := .staging size supplied [] }

def readHeader (closed : Bool) (s : State) : State :=
  match s.input.readLine lineEnd maxAwsChunkHeaderBytes with
  | .error (.read .eof) => s.fail .incompleteBody
  | .error _ => s.fail .framing
  | .ok (line, input) =>
    match upload.parseChunkHeader (textOf line) with
    | none => s.fail .framing
    | some (size, supplied) =>
      openChunk hashes upload closed { s with input := input } size supplied

/-- Read some more of a chunk. -/
def stage (s : State) (size : ℕ) (supplied : Str) (staged : Bytes) : State :=
  match s.input.readFull (min copyBuffer (size - staged.length)) with
  | .ok (got, input) => { s with
      input := input
      phase := .staging size supplied (staged ++ got) }
  | .error (.other .canceled) => s.fail .canceled
  | .error _ => s.fail .incompleteBody

/-- A chunk is copied if its signature is right. -/
def checkChunk (closed : Bool) (s : State) (size : ℕ) (supplied : Str) (staged : Bytes) : State :=
  if upload.verifiesChunks then
    if signatureMatches hashes upload s.previous supplied (hashes.sha256 staged) closed then
      { s with
        previous := decodeHex supplied
        phase := .copying size staged }
    else s.fail .signatureMismatch
  else { s with phase := .copying size staged }

def acceptChunk (closed : Bool) (s : State) (size : ℕ) (supplied : Str) (staged : Bytes) : State :=
  match expectCrlf s.input with
  | none => s.fail .framing
  | some input => checkChunk hashes upload closed { s with input := input } size supplied staged

def headerStep (s : State) : Event → Option State
  | .proceed => some (readHeader hashes upload false s)
  | .signingCloses => some (readHeader hashes upload true s)
  | .canceled => some (s.fail .canceled)
  -- there is no file for the chunk
  | .spoolFails =>
    match (readHeader hashes upload false s).phase with
    | .staging .. => some ((readHeader hashes upload false s).fail .spool)
    | _ => none
  | _ => none

def stagingStep (s : State) (size : ℕ) (supplied : Str) (staged : Bytes) : Event → Option State
  | .proceed =>
    if staged.length < size then some (stage s size supplied staged)
    else some (acceptChunk hashes upload false s size supplied staged)
  | .signingCloses =>
    if staged.length < size then none
    else some (acceptChunk hashes upload true s size supplied staged)
  | .canceled => if staged.length < size then some (s.fail .canceled) else none
  | .spoolFails =>
    if staged.length < size then some (s.fail .write)
    -- the file cannot be rewound
    else
      match (acceptChunk hashes upload false s size supplied staged).phase with
      | .copying .. => some ((acceptChunk hashes upload false s size supplied staged).fail .spool)
      | _ => none
  | _ => none

def copyingStep (s : State) (size : ℕ) (rest : Bytes) : Event → Option State
  | .copied count =>
    if 0 < count ∧ count ≤ copyBuffer ∧ count ≤ rest.length then
      some { s with
        dst := s.dst ++ rest.take count
        phase := .copying size (rest.drop count) }
    else none
  | .writeFails count accepted =>
    if accepted ≤ count ∧ count ≤ copyBuffer ∧ count ≤ rest.length then
      some ({ s with dst := s.dst ++ rest.take accepted }.fail .spool)
    else none
  | .spoolFails => some (s.fail .spool)
  | .proceed =>
    if rest = [] then
      some { s with
        total := s.total + size
        phase := .header }
    else none
  | _ => none

/-- One step of `verifyAWSChunked`. -/
def step (s : State) (event : Event) : Option State :=
  match s.phase with
  | .header => headerStep hashes upload s event
  | .staging size supplied staged => stagingStep hashes upload s size supplied staged event
  | .copying size rest => copyingStep s size rest event
  | .ended _ => none

def start (source : Script UInt8 BodyError) : State where
  input := Buffered.ofScript source
  previous :=
    match upload.signing with
    | some c => if upload.verifiesChunks then c.seedSignature else List.replicate 32 0
    | none => List.replicate 32 0
  total := 0
  dst := []
  phase :=
    if upload.verifiesChunks ∧ upload.signing.any (fun c => c.signingKey = []) then
      .ended (.error .signatureMismatch)
    else .header

/-- The body was accepted, with the trailers if the mode has them. -/
def Accepted (s : State) : Prop :=
  match s.phase with
  | .ended (.ok ()) => upload.hasTrailers = true →
      ∃ readable rewinds,
        verifyAwsTrailers hashes upload s.dst s.previous s.input readable rewinds = .ok ()
  | _ => False

end Verifier

/-! ## Well-formed bodies -/

/-- The text of a size, as the protocol writes it. -/
structure SizeText (text : Str) (size : ℕ) : Prop where
  ne_nil : text ≠ []
  length_le : text.length ≤ 16
  canonical : 1 < text.length → text.head? ≠ some '0'
  hex : text.all isLowerHex = true
  value_eq : hexNumber text = size

def HeaderLine (line : Bytes) (size : ℕ) (signature : Bytes) : Prop :=
  ∃ sizeText supplied,
    textOf line = sizeText ++ (chunkMarker ++ (supplied ++ crlfText)) ∧ SizeText sizeText size ∧
      validLowerHex supplied 64 = true ∧ decodeHex supplied = signature

structure Chunk where
  line : Bytes
  payload : Bytes
  signature : Bytes

def Chunk.encode (chunk : Chunk) : Bytes := chunk.line ++ (chunk.payload ++ crlf)

def encodeAll (chunks : List Chunk) : Bytes := chunks.flatMap Chunk.encode

def payloadOf (chunks : List Chunk) : Bytes := chunks.flatMap Chunk.payload

@[simp] theorem encodeAll_append (chunks chunks' : List Chunk) :
    encodeAll (chunks ++ chunks') = encodeAll chunks ++ encodeAll chunks' := List.flatMap_append

@[simp] theorem encodeAll_singleton (chunk : Chunk) : encodeAll [chunk] = chunk.encode :=
  List.flatMap_singleton ..

@[simp] theorem payloadOf_append (chunks chunks' : List Chunk) :
    payloadOf (chunks ++ chunks') = payloadOf chunks ++ payloadOf chunks' := List.flatMap_append

@[simp] theorem payloadOf_singleton (chunk : Chunk) : payloadOf [chunk] = chunk.payload :=
  List.flatMap_singleton ..

theorem payloadOf_dropLast_isPrefix (chunks : List Chunk) :
    payloadOf chunks.dropLast <+: payloadOf chunks := by
  rcases chunks.eq_nil_or_concat with rfl | ⟨front, last, rfl⟩
  · exact prefix_rfl
  · rw [concat_eq_append, dropLast_concat, payloadOf_append]
    exact prefix_append _ _

section Chains

variable (hashes : Hashes) (c : V4SigningContext)

/-- The chunk is well formed and signed behind `previous`. -/
structure Chunk.Follows (previous : Bytes) (chunk : Chunk) : Prop where
  header : HeaderLine chunk.line chunk.payload.length chunk.signature
  pos : 0 < chunk.payload.length
  le : chunk.payload.length ≤ maxAwsChunkBytes
  signature_eq : c.chunkSignature hashes previous (hashes.sha256 chunk.payload) = chunk.signature

/-- Each chunk is signed behind the one before it; the last signature is `last`. -/
def Chained : (previous : Bytes) → List Chunk → (last : Bytes) → Prop
  | previous, [], last => previous = last
  | previous, chunk :: chunks, last =>
    chunk.Follows hashes c previous ∧ Chained chunk.signature chunks last

variable {hashes c}

theorem Chained.concat {previous last : Bytes} {chunks : List Chunk}
    (hchained : Chained hashes c previous chunks last) {chunk : Chunk}
    (hchunk : chunk.Follows hashes c last) :
    Chained hashes c previous (chunks ++ [chunk]) chunk.signature := by
  induction chunks generalizing previous with
  | nil =>
    obtain rfl : previous = last := hchained
    exact ⟨hchunk, rfl⟩
  | cons first chunks ih =>
    obtain ⟨hfirst, hrest⟩ := hchained
    exact ⟨hfirst, ih hrest⟩

end Chains

/-! ### Parsed headers -/

theorem eq_of_indexByteString {sub text : Str} {i : ℕ}
    (hindex : indexByteString sub text = some i) :
    text = text.take i ++ (sub ++ text.drop (i + sub.length)) := by
  induction text generalizing i with
  | nil =>
    rw [indexByteString] at hindex
    split at hindex
    · rename_i hsub
      rw [hsub]
      simp
    · cases hindex
  | cons a rest ih =>
    rw [indexByteString] at hindex
    split_ifs at hindex with hsub
    · cases hindex
      obtain ⟨later, hlater⟩ := hsub
      rw [← hlater]
      simp
    · obtain ⟨j, hj, rfl⟩ := Option.map_eq_some_iff.mp hindex
      have hrest := ih hj
      rw [Nat.add_right_comm, take_succ_cons, drop_succ_cons, cons_append, ← hrest]

variable {size : ℕ}

theorem sizeText_of_parse {text : Str} (hparse : Upload.parseChunkSize text = some size) :
    SizeText text size := by
  rw [Upload.parseChunkSize] at hparse
  split_ifs at hparse with hlength hzero hhex
  cases hparse
  obtain ⟨hne, hle⟩ := not_or.mp hlength
  refine ⟨fun hnil => hne (by rw [hnil]; rfl), not_lt.mp hle,
    fun hlong hhead => hzero ⟨hlong, hhead⟩, ?_, rfl⟩
  rw [validLowerHex, Bool.and_eq_true] at hhex
  exact hhex.2

theorem headerLine_of_parse {upload : Upload} (hverifies : upload.verifiesChunks = true)
    {line : Bytes} {supplied : Str}
    (hparse : upload.parseChunkHeader (textOf line) = some (size, supplied)) :
    HeaderLine line size (decodeHex supplied) := by
  rw [Upload.parseChunkHeader] at hparse
  split_ifs at hparse with hends
  obtain ⟨-, hends⟩ := not_or.mp hends
  have hsuffix := take_append_of_isSuffix (not_not.mp hends)
  generalize (textOf line).take ((textOf line).length - 2) = front at hsuffix hparse
  obtain ⟨⟨sizeText, supplied'⟩, hsplit, hrest⟩ := Option.bind_eq_some_iff.mp hparse
  obtain ⟨size', hsize, hresult⟩ := Option.bind_eq_some_iff.mp hrest
  cases hresult
  rw [Upload.splitHeader, if_pos hverifies] at hsplit
  obtain ⟨i, hindex, hsigned⟩ := Option.bind_eq_some_iff.mp hsplit
  rw [Upload.splitSigned] at hsigned
  split_ifs at hsigned with hvalid
  cases hsigned
  obtain ⟨-, hvalid⟩ := not_or.mp hvalid
  obtain ⟨-, hvalid⟩ := not_or.mp hvalid
  refine ⟨_, _, ?_, sizeText_of_parse hsize, (Bool.not_eq_false _).mp hvalid, rfl⟩
  calc textOf line = front ++ crlfText := hsuffix.symm
    _ = front.take i ++ (chunkMarker ++ front.drop (i + chunkMarker.length)) ++ crlfText :=
        congrArg (· ++ crlfText) (eq_of_indexByteString hindex)
    _ = _ := by simp only [append_assoc]

/-! ## What holds at every moment -/

section Moments

variable (hashes : Hashes) (upload : Upload) (c : V4SigningContext)

/-- What the verified chunks, of which the last one has the signature `last`, have to do with the
state. -/
def State.Holds (source : Buffered UInt8 BodyError) (s : State) (chunks : List Chunk)
    (last : Bytes) : Prop :=
  match s.phase with
  | .header =>
    source.Reads (encodeAll chunks) s.input ∧ s.previous = last ∧ s.dst = payloadOf chunks ∧
      s.total = s.dst.length
  | .staging size supplied staged =>
    (∃ line, source.Reads (encodeAll chunks ++ (line ++ staged)) s.input ∧
      HeaderLine line size (decodeHex supplied)) ∧
    s.previous = last ∧ s.dst = payloadOf chunks ∧ s.total = s.dst.length ∧ 0 < size ∧
      size ≤ maxAwsChunkBytes ∧ staged.length ≤ size
  | .copying size rest =>
    source.Reads (encodeAll chunks) s.input ∧ s.previous = last ∧
      ∃ done chunk copied, chunks = done ++ [chunk] ∧ chunk.payload = copied ++ rest ∧
        chunk.payload.length = size ∧ s.dst = payloadOf done ++ copied ∧
        s.total = (payloadOf done).length
  | .ended (.error _) =>
    encodeAll chunks <+: source.data ∧ payloadOf chunks.dropLast <+: s.dst ∧
      s.dst <+: payloadOf chunks
  | .ended (.ok ()) =>
    (∃ line, source.Reads (encodeAll chunks ++ line) s.input ∧ HeaderLine line 0 s.previous) ∧
      c.chunkSignature hashes last (hashes.sha256 []) = s.previous ∧
      s.dst = payloadOf chunks ∧
      (0 ≤ upload.decodedLength → (s.dst.length : ℤ) = upload.decodedLength) ∧
      (upload.hasTrailers = false → s.input = ⟨[], .eof⟩ ∨ s.input = ⟨crlf, .eof⟩)

/-- The chunks verified so far form a chain. -/
def Invariant (source : Buffered UInt8 BodyError) (s : State) : Prop :=
  ∃ chunks last, Chained hashes c c.seedSignature chunks last ∧
    s.Holds hashes upload c source chunks last

variable {hashes upload c} {source : Buffered UInt8 BodyError} {s : State} {chunks : List Chunk}
  {last : Bytes}

/-- Behind the verified chunks and `front` of the next one. -/
structure Behind (hashes : Hashes) (c : V4SigningContext) (source : Buffered UInt8 BodyError)
    (s : State) (chunks : List Chunk) (last front : Bytes) : Prop where
  chained : Chained hashes c c.seedSignature chunks last
  reads : source.Reads (encodeAll chunks ++ front) s.input
  previous_eq : s.previous = last
  dst_eq : s.dst = payloadOf chunks
  total_eq : s.total = s.dst.length

variable {front : Bytes}

theorem Behind.fail (hbehind : Behind hashes c source s chunks last front) (upload : Upload)
    (err : StreamingError) : Invariant hashes upload c source (s.fail err) := by
  refine ⟨chunks, last, hbehind.chained, ?_, ?_, ?_⟩
  · exact (prefix_append _ _).trans hbehind.reads.isPrefix
  · exact hbehind.dst_eq ▸ payloadOf_dropLast_isPrefix chunks
  · exact hbehind.dst_eq ▸ prefix_rfl

theorem Behind.next (hbehind : Behind hashes c source s chunks last front) {more : Bytes}
    {input : Buffered UInt8 BodyError} (hreads : s.input.Reads more input) :
    Behind hashes c source { s with input := input } chunks last (front ++ more) where
  chained := hbehind.chained
  reads := by
    rw [← append_assoc]
    exact hbehind.reads.trans hreads
  previous_eq := hbehind.previous_eq
  dst_eq := hbehind.dst_eq
  total_eq := hbehind.total_eq

theorem Invariant.fail (hinvariant : Invariant hashes upload c source s)
    (hrunning : ∀ result, s.phase ≠ .ended result) (err : StreamingError) :
    Invariant hashes upload c source (s.fail err) := by
  obtain ⟨chunks, last, hchained, hholds⟩ := hinvariant
  obtain ⟨input, previous, total, dst, phase⟩ := s
  cases phase with
  | header =>
    obtain ⟨hread, hprevious, hdst, htotal⟩ := hholds
    rw [← append_nil (encodeAll chunks)] at hread
    exact Behind.fail ⟨hchained, hread, hprevious, hdst, htotal⟩ upload err
  | staging size supplied staged =>
    obtain ⟨⟨line, hread, -⟩, hprevious, hdst, htotal, -⟩ := hholds
    exact Behind.fail ⟨hchained, hread, hprevious, hdst, htotal⟩ upload err
  | copying size rest =>
    obtain ⟨hread, -, done, chunk, copied, rfl, hpayload, -, hdst, -⟩ := hholds
    refine ⟨_, last, hchained, hread.isPrefix, ?_, ?_⟩
    · rw [dropLast_concat]
      exact ⟨copied, hdst.symm⟩
    · refine ⟨rest, ?_⟩
      show dst ++ rest = _
      rw [show dst = _ from hdst, payloadOf_append, payloadOf_singleton, hpayload, append_assoc]
  | ended result => exact absurd rfl (hrunning result)

theorem signature_of_matches (hsigning : upload.signing = some c) {previous dataHash : Bytes}
    {closed : Bool}
    (hmatches : signatureMatches hashes upload previous supplied dataHash closed = true) :
    c.chunkSignature hashes previous dataHash = decodeHex supplied := by
  rw [signatureMatches, hsigning] at hmatches
  exact (of_decide_eq_true hmatches).2.2.2

theorem invariant_endChunks (hbehind : Behind hashes c source s chunks last line)
    {final : Bytes} (hline : HeaderLine line 0 final)
    (hsignature : c.chunkSignature hashes last (hashes.sha256 []) = final) :
    Invariant hashes upload c source (endChunks upload { s with previous := final }) := by
  have hfail : ∀ err, Invariant hashes upload c source
      ({ s with previous := final }.fail err : State) := hbehind.fail upload
  rw [endChunks]
  split
  · exact hfail _
  rename_i hlength
  have hexact : 0 ≤ upload.decodedLength → (s.dst.length : ℤ) = upload.decodedLength := by
    intro hdeclared
    rw [← hbehind.total_eq]
    by_contra hne
    exact hlength ⟨hdeclared, hne⟩
  split_ifs with htrailers
  · refine ⟨chunks, last, hbehind.chained, ⟨line, hbehind.reads, hline⟩, hsignature,
      hbehind.dst_eq, hexact, ?_⟩
    intro hnone
    rw [htrailers] at hnone
    cases hnone
  · cases hend : checkEnd s.input with
    | error err => exact hfail err
    | ok _ =>
      refine ⟨chunks, last, hbehind.chained, ⟨line, hbehind.reads, hline⟩, hsignature,
        hbehind.dst_eq, hexact, ?_⟩
      intro _
      rw [checkEnd] at hend
      split at hend
      · assumption
      · cases hend

section

variable (hsigning : upload.signing = some c) (hverifies : upload.verifiesChunks = true)

include hsigning hverifies

theorem invariant_openChunk (hbehind : Behind hashes c source s chunks last line)
    (hline : HeaderLine line size (decodeHex supplied)) (closed : Bool) :
    Invariant hashes upload c source (openChunk hashes upload closed s size supplied) := by
  rw [openChunk, if_pos hverifies]
  split_ifs with hzero hmatches hmax hlength
  · have hsignature := signature_of_matches hsigning hmatches
    rw [hbehind.previous_eq] at hsignature
    rw [hzero] at hline
    exact invariant_endChunks hbehind hline hsignature
  · exact hbehind.fail upload _
  · exact hbehind.fail upload _
  · exact hbehind.fail upload _
  · refine ⟨chunks, last, hbehind.chained, ⟨line, ?_, hline⟩, hbehind.previous_eq,
      hbehind.dst_eq, hbehind.total_eq, Nat.pos_of_ne_zero hzero, not_lt.mp hmax, Nat.zero_le _⟩
    rw [append_nil]
    exact hbehind.reads

theorem invariant_readHeader (hbehind : Behind hashes c source s chunks last []) (closed : Bool) :
    Invariant hashes upload c source (readHeader hashes upload closed s) := by
  rw [readHeader]
  split
  · exact hbehind.fail upload _
  · exact hbehind.fail upload _
  · rename_i line input hline
    obtain ⟨hreads, -, -⟩ := Buffered.reads_of_readLine hline
    split
    · exact hbehind.fail upload _
    · rename_i size supplied hparse
      exact invariant_openChunk hsigning hverifies (hbehind.next hreads)
        (headerLine_of_parse hverifies hparse) closed

end

theorem reads_of_expectCrlf {input input' : Buffered UInt8 BodyError}
    (hcrlf : expectCrlf input = some input') : input.Reads crlf input' := by
  rw [expectCrlf] at hcrlf
  split at hcrlf
  · rename_i a b rest hdata
    split at hcrlf <;> cases hcrlf
    rename_i hab
    refine ⟨?_, rfl⟩
    rw [hdata, hab.1, hab.2]
    rfl
  · cases hcrlf

variable {size : ℕ} {supplied : Str} {staged line rest : Bytes}

section

variable (hbehind : Behind hashes c source s chunks last (line ++ staged))
  (hline : HeaderLine line size (decodeHex supplied)) (hpos : 0 < size)
  (hmax : size ≤ maxAwsChunkBytes)

include hbehind hline hpos hmax

theorem invariant_stage (hstaged : staged.length ≤ size) :
    Invariant hashes upload c source (stage s size supplied staged) := by
  rw [stage]
  split
  · rename_i got input hfull
    obtain ⟨hreads, hgot⟩ := Buffered.reads_of_readFull hfull
    have hnext := hbehind.next hreads
    rw [append_assoc] at hnext
    refine ⟨chunks, last, hnext.chained, ⟨line, hnext.reads, hline⟩, hnext.previous_eq,
      hnext.dst_eq, hnext.total_eq, hpos, hmax, ?_⟩
    rw [length_append, hgot]
    omega
  · exact hbehind.fail upload _
  · exact hbehind.fail upload _

theorem invariant_acceptChunk (hsigning : upload.signing = some c)
    (hverifies : upload.verifiesChunks = true) (hstaged : staged.length = size) (closed : Bool) :
    Invariant hashes upload c source (acceptChunk hashes upload closed s size supplied staged) := by
  rw [acceptChunk]
  split
  · exact hbehind.fail upload _
  rename_i input hcrlf
  have hnext := hbehind.next (reads_of_expectCrlf hcrlf)
  rw [checkChunk, if_pos hverifies]
  split_ifs with hmatches
  · have hsignature := signature_of_matches hsigning hmatches
    rw [hnext.previous_eq] at hsignature
    subst hstaged
    have hfollows : Chunk.Follows hashes c last ⟨line, staged, decodeHex supplied⟩ :=
      ⟨hline, hpos, hmax, hsignature⟩
    refine ⟨chunks ++ [⟨line, staged, decodeHex supplied⟩], _, hnext.chained.concat hfollows, ?_,
      rfl, chunks, _, [], rfl, rfl, rfl, ?_, ?_⟩
    · rw [encodeAll_append, encodeAll_singleton, Chunk.encode, ← append_assoc line]
      exact hnext.reads
    · rw [append_nil]
      exact hnext.dst_eq
    · rw [← hnext.dst_eq]
      exact hnext.total_eq
  · exact hnext.fail upload _

end

theorem invariant_copy (hinvariant : Invariant hashes upload c source s)
    (hphase : s.phase = .copying size rest) (count : ℕ) :
    Invariant hashes upload c source { s with
      dst := s.dst ++ rest.take count
      phase := .copying size (rest.drop count) } := by
  obtain ⟨chunks, last, hchained, hholds⟩ := hinvariant
  rw [State.Holds, hphase] at hholds
  obtain ⟨hread, hprevious, done, chunk, copied, hchunks, hpayload, hsize, hdst, htotal⟩ := hholds
  refine ⟨chunks, last, hchained, hread, hprevious, done, chunk, copied ++ rest.take count, hchunks,
    ?_, hsize, ?_, htotal⟩
  · rw [append_assoc, take_append_drop]
    exact hpayload
  · show s.dst ++ _ = _
    rw [hdst, append_assoc]

theorem invariant_copied (hinvariant : Invariant hashes upload c source s)
    (hphase : s.phase = .copying size []) :
    Invariant hashes upload c source { s with
      total := s.total + size
      phase := .header } := by
  obtain ⟨chunks, last, hchained, hholds⟩ := hinvariant
  rw [State.Holds, hphase] at hholds
  obtain ⟨hread, hprevious, done, chunk, copied, rfl, hpayload, hsize, hdst, htotal⟩ := hholds
  rw [append_nil] at hpayload
  have hdst' : s.dst = payloadOf (done ++ [chunk]) := by
    rw [hdst, payloadOf_append, payloadOf_singleton, hpayload]
  refine ⟨_, last, hchained, hread, hprevious, hdst', ?_⟩
  show s.total + size = s.dst.length
  rw [hdst', payloadOf_append, payloadOf_singleton, length_append, htotal, hsize]

variable {event : Event} {s' : State}

theorem invariant_headerStep (hsigning : upload.signing = some c)
    (hverifies : upload.verifiesChunks = true) (hinvariant : Invariant hashes upload c source s)
    (hphase : s.phase = .header) (hstep : headerStep hashes upload s event = some s') :
    Invariant hashes upload c source s' := by
  have hnext : ∀ closed, Invariant hashes upload c source (readHeader hashes upload closed s) := by
    obtain ⟨chunks, last, hchained, hholds⟩ := hinvariant
    rw [State.Holds, hphase] at hholds
    obtain ⟨hread, hprevious, hdst, htotal⟩ := hholds
    rw [← append_nil (encodeAll chunks)] at hread
    exact invariant_readHeader hsigning hverifies ⟨hchained, hread, hprevious, hdst, htotal⟩
  cases event with
  | proceed =>
    cases hstep
    exact hnext false
  | signingCloses =>
    cases hstep
    exact hnext true
  | canceled =>
    cases hstep
    exact hinvariant.fail (fun result => by rw [hphase]; nofun) _
  | spoolFails =>
    rw [headerStep] at hstep
    split at hstep <;> cases hstep
    rename_i hstaging
    exact (hnext false).fail (fun result => by rw [hstaging]; nofun) _
  | copied count => cases hstep
  | writeFails count accepted => cases hstep

theorem invariant_stagingStep (hsigning : upload.signing = some c)
    (hverifies : upload.verifiesChunks = true) (hinvariant : Invariant hashes upload c source s)
    (hphase : s.phase = .staging size supplied staged)
    (hstep : stagingStep hashes upload s size supplied staged event = some s') :
    Invariant hashes upload c source s' := by
  have hfail := hinvariant.fail (fun result => by rw [hphase]; nofun)
  obtain ⟨hmore, haccept⟩ :
      Invariant hashes upload c source (stage s size supplied staged) ∧
        (¬staged.length < size → ∀ closed, Invariant hashes upload c source
          (acceptChunk hashes upload closed s size supplied staged)) := by
    obtain ⟨chunks, last, hchained, hholds⟩ := hinvariant
    rw [State.Holds, hphase] at hholds
    obtain ⟨⟨line, hread, hline⟩, hprevious, hdst, htotal, hpos, hmax, hstaged⟩ := hholds
    have hbehind : Behind hashes c source s chunks last (line ++ staged) :=
      ⟨hchained, hread, hprevious, hdst, htotal⟩
    refine ⟨invariant_stage hbehind hline hpos hmax hstaged, ?_⟩
    intro hfull
    exact invariant_acceptChunk hbehind hline hpos hmax hsigning hverifies (by omega)
  cases event with
  | proceed =>
    rw [stagingStep] at hstep
    split_ifs at hstep with hfull
    · cases hstep
      exact hmore
    · cases hstep
      exact haccept hfull false
  | signingCloses =>
    rw [stagingStep] at hstep
    split at hstep <;> cases hstep
    rename_i hfull
    exact haccept hfull true
  | canceled =>
    rw [stagingStep] at hstep
    split at hstep <;> cases hstep
    exact hfail _
  | spoolFails =>
    rw [stagingStep] at hstep
    split_ifs at hstep with hfull
    · cases hstep
      exact hfail _
    · split at hstep <;> cases hstep
      rename_i hcopying
      exact (haccept hfull false).fail (fun result => by rw [hcopying]; nofun) _
  | copied count => cases hstep
  | writeFails count accepted => cases hstep

theorem invariant_copyingStep (hinvariant : Invariant hashes upload c source s)
    (hphase : s.phase = .copying size rest) (hstep : copyingStep s size rest event = some s') :
    Invariant hashes upload c source s' := by
  cases event with
  | proceed =>
    rw [copyingStep] at hstep
    split at hstep <;> cases hstep
    rename_i hrest
    rw [hrest] at hphase
    exact invariant_copied hinvariant hphase
  | copied count =>
    rw [copyingStep] at hstep
    split at hstep <;> cases hstep
    exact invariant_copy hinvariant hphase count
  | writeFails count accepted =>
    rw [copyingStep] at hstep
    split at hstep <;> cases hstep
    have hcopied := invariant_copy hinvariant hphase accepted
    exact hcopied.fail (fun result => nofun) _
  | spoolFails =>
    cases hstep
    exact hinvariant.fail (fun result => by rw [hphase]; nofun) _
  | canceled => cases hstep
  | signingCloses => cases hstep

/-- **The step lemma.** -/
theorem invariant_step (hsigning : upload.signing = some c)
    (hverifies : upload.verifiesChunks = true) (hinvariant : Invariant hashes upload c source s)
    (hstep : step hashes upload s event = some s') : Invariant hashes upload c source s' := by
  rw [step] at hstep
  split at hstep
  · exact invariant_headerStep hsigning hverifies hinvariant ‹_› hstep
  · exact invariant_stagingStep hsigning hverifies hinvariant ‹_› hstep
  · exact invariant_copyingStep hinvariant ‹_› hstep
  · cases hstep

theorem invariant_start (hsigning : upload.signing = some c)
    (hverifies : upload.verifiesChunks = true) (script : Script UInt8 BodyError) :
    Invariant hashes upload c (Buffered.ofScript script) (start upload script) := by
  have hprevious : (start upload script).previous = c.seedSignature := by
    rw [start, hsigning]
    exact if_pos hverifies
  have hchained : Chained hashes c c.seedSignature [] c.seedSignature := rfl
  by_cases hkey : upload.verifiesChunks = true ∧
      upload.signing.any (fun c => c.signingKey = []) = true
  · refine ⟨[], _, hchained, ?_⟩
    rw [State.Holds, show (start upload script).phase = .ended (.error .signatureMismatch) from
      if_pos hkey]
    exact ⟨List.nil_prefix, prefix_rfl, prefix_rfl⟩
  · refine ⟨[], _, hchained, ?_⟩
    rw [State.Holds, show (start upload script).phase = .header from if_neg hkey]
    exact ⟨Buffered.Reads.refl _, hprevious, rfl, rfl⟩

end Moments

/-! ## Verified bodies -/

section Bodies

variable (hashes : Hashes) (upload : Upload) (c : V4SigningContext)
  (source : Buffered UInt8 BodyError) (dst : Bytes)

/-- The destination holds complete verified chunks. -/
def CompleteChunks : Prop :=
  ∃ chunks last, Chained hashes c c.seedSignature chunks last ∧
    encodeAll chunks <+: source.data ∧ dst = payloadOf chunks

/-- The destination holds complete verified chunks, and a front of one more verified chunk. -/
def VerifiedSoFar : Prop :=
  ∃ chunks last, Chained hashes c c.seedSignature chunks last ∧
    encodeAll chunks <+: source.data ∧ payloadOf chunks.dropLast <+: dst ∧ dst <+: payloadOf chunks

/-- What may come behind the empty chunk. -/
def WellFormedTail (final tail : Bytes) : Prop :=
  if upload.hasTrailers then
    ∃ entries, textOf tail = trailerSection entries ∧
      TrailersVerified hashes c upload.declaration dst final entries
  else tail = [] ∨ tail = crlf

/-- The stream is a chain of chunks, an empty chunk that ends the chain, the trailers, and
nothing else.  The destination has the payload, in the announced length. -/
def WellFormedBody : Prop :=
  ∃ chunks last zeroLine final tail, Chained hashes c c.seedSignature chunks last ∧
    HeaderLine zeroLine 0 final ∧ c.chunkSignature hashes last (hashes.sha256 []) = final ∧
    WellFormedTail hashes upload c dst final tail ∧
    source = ⟨encodeAll chunks ++ (zeroLine ++ tail), .eof⟩ ∧ dst = payloadOf chunks ∧
    (0 ≤ upload.decodedLength → (dst.length : ℤ) = upload.decodedLength)

variable {hashes upload c source} {s : State}

theorem Invariant.verifiedSoFar (hinvariant : Invariant hashes upload c source s) :
    VerifiedSoFar hashes c source s.dst := by
  by_cases hrunning : ∀ result, s.phase ≠ .ended result
  · -- what holds of a failure here holds now
    obtain ⟨chunks, last, hchained, hholds⟩ := hinvariant.fail hrunning .canceled
    exact ⟨chunks, last, hchained, hholds⟩
  · obtain ⟨result, hphase⟩ := not_forall_not.mp hrunning
    obtain ⟨chunks, last, hchained, hholds⟩ := hinvariant
    rw [State.Holds, hphase] at hholds
    cases result with
    | error err => exact ⟨chunks, last, hchained, hholds⟩
    | ok _ =>
      obtain ⟨⟨line, hread, -⟩, -, hdst, -⟩ := hholds
      refine ⟨chunks, last, hchained, (prefix_append _ _).trans hread.isPrefix, ?_, ?_⟩
      · exact hdst ▸ payloadOf_dropLast_isPrefix chunks
      · exact hdst ▸ prefix_rfl

theorem Invariant.wellFormedBody (hsigning : upload.signing = some c)
    (hmode : upload.mode = .signedPayload ∨ upload.mode = .signedPayloadTrailer)
    (hinvariant : Invariant hashes upload c source s) (haccepted : Accepted hashes upload s) :
    WellFormedBody hashes upload c source s.dst := by
  rw [Accepted] at haccepted
  split at haccepted
  · rename_i hphase
    obtain ⟨chunks, last, hchained, hholds⟩ := hinvariant
    rw [State.Holds, hphase] at hholds
    obtain ⟨⟨line, hread, hline⟩, hsignature, hdst, hlength, hend⟩ := hholds
    obtain ⟨htail, hending⟩ : WellFormedTail hashes upload c s.dst s.previous s.input.data ∧
        s.input.ending = .eof := by
      rw [WellFormedTail]
      split_ifs with htrailers
      · obtain ⟨readable, rewinds, hverify⟩ := haccepted htrailers
        have htrailer : upload.mode = .signedPayloadTrailer := by
          rcases hmode with hplain | htrailer
          · rw [Upload.hasTrailers, hplain] at htrailers
            cases of_decide_eq_true htrailers with
            | inl h => cases h
            | inr h => cases h
          · exact htrailer
        obtain ⟨entries, htext, hending, hverified⟩ := trailers_of_verify hsigning htrailer hverify
        exact ⟨⟨entries, htext, hverified⟩, hending⟩
      · rcases hend ((Bool.not_eq_true _).mp htrailers) with hinput | hinput
        · rw [hinput]
          exact ⟨.inl rfl, rfl⟩
        · rw [hinput]
          exact ⟨.inr rfl, rfl⟩
    refine ⟨chunks, last, line, s.previous, s.input.data, hchained, hline, hsignature, htail, ?_,
      hdst, hlength⟩
    obtain ⟨data, ending⟩ := source
    have hdata : data = _ := hread.data_eq
    have hsame : ending = _ := hread.ending_eq
    rw [hdata, hsame, hending, append_assoc]
  · exact haccepted.elim

end Bodies

/-- **Signed uploads.**  Whatever the body is and however it arrives, at every moment the
destination holds complete chunks of the chain of signatures, and possibly a front of one more.
A body is only accepted if it is such a chain up to an empty chunk, the trailers of the mode, and
nothing else, and if it has the announced length. -/
theorem verified_of_run (hashes : Hashes) (upload : Upload) (c : V4SigningContext)
    (hsigning : upload.signing = some c) (hsame : c.mode = upload.mode)
    (hmode : upload.mode = .signedPayload ∨ upload.mode = .signedPayloadTrailer)
    (script : Script UInt8 BodyError) (events : List Event) (s : State)
    (hrun : Transitions.run (step hashes upload) (start upload script) events = some s) :
    VerifiedSoFar hashes c (Buffered.ofScript script) s.dst ∧
      (Accepted hashes upload s →
        WellFormedBody hashes upload c (Buffered.ofScript script) s.dst) := by
  have hverifies : upload.verifiesChunks = true := by
    rw [Upload.verifiesChunks, hsigning]
    refine decide_eq_true ?_
    rw [hsame]
    rcases hmode with hmode | hmode <;> rw [hmode] <;> decide
  have hinvariant : Invariant hashes upload c (Buffered.ofScript script) s :=
    Transitions.run_keeps _ (Invariant hashes upload c (Buffered.ofScript script))
      (fun s event s' hs hstep => invariant_step hsigning hverifies hs hstep)
      (invariant_start hsigning hverifies script) hrun
  exact ⟨hinvariant.verifiedSoFar, hinvariant.wellFormedBody hsigning hmode⟩

/-- Hashes under which every signature is zero. -/
def sampleHashes : Hashes := ⟨fun _ => [], fun _ _ => List.replicate 32 0, fun _ _ => []⟩

def sampleContext : V4SigningContext := ⟨.signedPayload, [1], [], [], []⟩

def sampleUpload : Upload := ⟨some sampleContext, .signedPayload, 2, []⟩

def sampleHeader (size : Str) : Bytes :=
  (size ++ chunkMarker ++ List.replicate 64 '0' ++ crlfText).map fun c => UInt8.ofNat c.toNat

/-- A chunk of two bytes and the empty chunk. -/
def sampleBody : Script UInt8 BodyError :=
  [⟨sampleHeader ['2'] ++ ([7, 8] ++ crlf), none⟩, ⟨sampleHeader ['0'], none⟩]

/-- The whole body is accepted. -/
theorem verified_two_bytes :
    ∃ s, Transitions.run (step sampleHashes sampleUpload) (start sampleUpload sampleBody)
        [.proceed, .proceed, .proceed, .copied 2, .proceed, .proceed] = some s ∧
      s.dst = [7, 8] ∧ Accepted sampleHashes sampleUpload s ∧
      WellFormedBody sampleHashes sampleUpload sampleContext (Buffered.ofScript sampleBody)
        s.dst := by
  have hend : (Transitions.run (step sampleHashes sampleUpload) (start sampleUpload sampleBody)
      [.proceed, .proceed, .proceed, .copied 2, .proceed, .proceed]).map
        (fun s => (s.dst, s.phase)) = some ([7, 8], .ended (.ok ())) := by
    decide +kernel
  obtain ⟨s, hrun, hs⟩ := Option.map_eq_some_iff.mp hend
  obtain ⟨hdst, hphase⟩ := Prod.mk.inj hs
  have haccepted : Accepted sampleHashes sampleUpload s := by
    rw [Accepted, hphase]
    exact nofun
  exact ⟨s, hrun, hdst, haccepted, (verified_of_run sampleHashes sampleUpload sampleContext rfl rfl
    (.inl rfl) sampleBody _ s hrun).2 haccepted⟩

/-- The size of a header is what stands in front of the first semicolon. -/
theorem HeaderLine.size_eq {line signature : Bytes} (hline : HeaderLine line size signature)
    (rest : Bytes) : hexNumber ((textOf (line ++ rest)).takeWhile (· ≠ ';')) = size := by
  obtain ⟨sizeText, supplied, htext, hsize, -⟩ := hline
  have hdigits : ∀ d ∈ sizeText, decide (d ≠ ';') = true := by
    intro d hd
    have hhex := all_eq_true.mp hsize.hex d hd
    refine decide_eq_true fun heq => ?_
    exact absurd (heq ▸ hhex) (by decide)
  have hmarker : chunkMarker = ';' :: "chunk-signature=".toList := by decide
  calc hexNumber ((textOf (line ++ rest)).takeWhile (· ≠ ';'))
      _ = hexNumber ((sizeText ++ (chunkMarker ++ (supplied ++ crlfText) ++ textOf rest)).takeWhile
            (· ≠ ';')) := by
          rw [textOf_append, htext, append_assoc]
      _ = hexNumber sizeText := by
          rw [takeWhile_append_of_pos hdigits, hmarker, cons_append, cons_append,
            takeWhile_cons_of_neg (by decide), append_nil]
      _ = size := hsize.value_eq

/-- The destination fails after one of the two bytes: what it holds is no complete chunk. -/
theorem incomplete_chunk_written :
    ∃ s, Transitions.run (step sampleHashes sampleUpload) (start sampleUpload sampleBody)
        [.proceed, .proceed, .proceed, .writeFails 2 1] = some s ∧
      ¬CompleteChunks sampleHashes sampleContext (Buffered.ofScript sampleBody) s.dst := by
  have hend : (Transitions.run (step sampleHashes sampleUpload) (start sampleUpload sampleBody)
      [.proceed, .proceed, .proceed, .writeFails 2 1]).map State.dst = some [7] := by
    decide +kernel
  obtain ⟨s, hrun, hdst⟩ := Option.map_eq_some_iff.mp hend
  refine ⟨s, hrun, ?_⟩
  rintro ⟨chunks, last, hchained, ⟨later, hlater⟩, hpayload⟩
  rw [hdst] at hpayload
  cases chunks with
  | nil => cases hpayload
  | cons chunk chunks =>
    have hsource : chunk.line ++ (chunk.payload ++ crlf ++ encodeAll chunks ++ later) =
        (Buffered.ofScript sampleBody).data := by
      rw [← hlater]
      simp [encodeAll, Chunk.encode]
    have hsize := hchained.1.header.size_eq (chunk.payload ++ crlf ++ encodeAll chunks ++ later)
    rw [hsource] at hsize
    have htwo : hexNumber ((textOf (Buffered.ofScript sampleBody).data).takeWhile (· ≠ ';')) =
        2 := by
      decide +kernel
    have hlength := congrArg List.length hpayload
    rw [payloadOf, flatMap_cons, length_append, ← hsize, htwo] at hlength
    simp only [length_singleton] at hlength
    omega

end S3EncryptionGateway.Api.AwsChunked
