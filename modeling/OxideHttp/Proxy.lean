import Mathlib.Data.List.GetD
import Mathlib.Data.List.Infix
import Mathlib.Tactic.Common
import OxideHttp.Lib.IpText
import OxideHttp.Lib.Pieces

/-!
# The PROXY protocol header (`src/proxy_protocol.rs`)

A connection is embedded as the list of what its reads return.  Each read has a buffer of
256 bytes, so a read returns from one to 256 bytes, and after the last one the stream has
ended.

Results.
* `outcome_v1`, `outcome_v2`: what `read_header` makes of a stream.  For version 2 it hangs
  on the stream alone; for version 1 also on whether a read ends inside the line, behind
  the longest line that the specification allows.
* `fragmentation_iff`: the streams for which the reads do not matter.
-/

namespace OxideHttp
namespace Proxy

open IpText Pieces

/-- v2 signature: 12 bytes before the binary header. -/
def sigV2 : List UInt8 :=
  [0x0D, 0x0A, 0x0D, 0x0A, 0x00, 0x0D, 0x0A, 0x51, 0x55, 0x49, 0x54, 0x0A]

/-- v1 text prefix: `PROXY` and a space. -/
def sigV1 : List UInt8 := [0x50, 0x52, 0x4F, 0x58, 0x59, 0x20]

/-- Maximum v1 line length per the specification (including CRLF). -/
def maxV1 : Nat := 107

/-- Bytes of a `read`. -/
def chunkSize : Nat := 256

/-- The source address, if one was supplied. -/
abbrev ParsedAddr := Option (List Char)

/-- What the reads of a connection return. -/
structure Conn where
  reads : List (List UInt8)
  size : ∀ chunk ∈ reads, 0 < chunk.length ∧ chunk.length ≤ chunkSize

def Conn.stream (c : Conn) : List UInt8 := c.reads.flatten

/-- `PrefixedIo`: the bytes of the header's buffer that are left over come first. -/
structure PrefixedIo where
  inner : List (List UInt8)
  leftover : List UInt8
  pos : Nat
  deriving DecidableEq, Repr

def PrefixedIo.new (inner : List (List UInt8)) (leftover : List UInt8) : PrefixedIo where
  inner := inner
  leftover := leftover
  pos := 0

/-- `poll_read` into a buffer that has room for `room` bytes. -/
def PrefixedIo.pollRead (io : PrefixedIo) (room : Nat) : List UInt8 × PrefixedIo :=
  if io.pos < io.leftover.length then
    let rest := io.leftover.drop io.pos
    let n := min rest.length room
    (rest.take n, { io with pos := io.pos + n })
  else
    match io.inner with
    | [] => ([], io)
    | chunk :: reads =>
        (chunk.take room,
          { io with inner := if chunk.length ≤ room then reads else chunk.drop room :: reads })

/-- `read_at_least`: the buffer and the reads that are left. -/
def readAtLeast (want : Nat) (buf : List UInt8) :
    List (List UInt8) → Option (List UInt8 × List (List UInt8))
  | [] => if buf.length < want then none else some (buf, [])
  | chunk :: reads =>
      if buf.length < want then
        if chunk.length = 0 then none else readAtLeast want (buf ++ chunk) reads
      else some (buf, chunk :: reads)

/-- `find_crlf`. -/
def findCrlf : List UInt8 → Option Nat
  | a :: b :: rest =>
      if a = 0x0D ∧ b = 0x0A then some 0 else (findCrlf (b :: rest)).map (· + 1)
  | _ => none

/-- `str::from_utf8`. -/
def fromUtf8 (bytes : List UInt8) : Option (List Char) :=
  bytes.toByteArray.utf8Decode?.map Array.toList

theorem readAtLeast_length_le {want : Nat} {buf : List UInt8} {reads : List (List UInt8)}
    {r : List UInt8 × List (List UInt8)} (h : readAtLeast want buf reads = some r) :
    r.2.length ≤ reads.length := by
  induction reads generalizing buf with
  | nil =>
      simp only [readAtLeast] at h
      split at h <;> cases h
      exact Nat.le_refl _
  | cons chunk reads ih =>
      simp only [readAtLeast] at h
      split at h
      · split at h
        · cases h
        · have htail := ih h
          rw [List.length_cons]
          omega
      · cases h
        exact Nat.le_refl _

theorem readAtLeast_length_lt {want : Nat} {buf : List UInt8} {reads : List (List UInt8)}
    {r : List UInt8 × List (List UInt8)} (h : readAtLeast want buf reads = some r)
    (hwant : buf.length < want) : r.2.length < reads.length := by
  cases reads with
  | nil => simp [readAtLeast, hwant] at h
  | cons chunk reads =>
      simp only [readAtLeast, if_pos hwant] at h
      split at h
      · cases h
      · have htail := readAtLeast_length_le h
        rw [List.length_cons]
        omega

/-- The loop of `parse_v1`: where the line ends, the buffer, and the reads that are left. -/
def readLine (buf : List UInt8) (reads : List (List UInt8)) :
    Option (Nat × List UInt8 × List (List UInt8)) :=
  match findCrlf buf with
  | some i => some (i, buf, reads)
  | none =>
      if maxV1 < buf.length then none
      else
        match _h : readAtLeast (buf.length + 1) buf reads with
        | none => none
        | some r => readLine r.1 r.2
termination_by reads.length
decreasing_by exact readAtLeast_length_lt _h (Nat.lt_succ_self _)

/-- What `parse_v1` makes of the line. -/
def parseLine (bytes : List UInt8) : Option ParsedAddr := do
  let line ← fromUtf8 bytes
  let parts := line.splitOn ' '
  if parts[0]? ≠ some "PROXY".toList then none
  else if parts[1]? = some "TCP4".toList ∨ parts[1]? = some "TCP6".toList then
    return parts[2]?
  else if parts[1]? = some "UNKNOWN".toList then return none
  else none

/-- `parse_v1`. -/
def parseV1 (reads : List (List UInt8)) (buf : List UInt8) :
    Option (PrefixedIo × ParsedAddr) := do
  let (stop, buf, reads) ← readLine buf reads
  let addr ← parseLine (buf.take stop)
  return (.new reads (buf.drop (stop + 2)), addr)

/-- `u16::from_be_bytes`. -/
def fromBeBytes (hi lo : UInt8) : Nat := hi.toNat * 256 + lo.toNat

/-- The segments of an IPv6 address at the start of a block. -/
def segments (addrBlock : List UInt8) : List Nat :=
  (List.range 8).map fun i =>
    fromBeBytes (addrBlock.getD (i * 2) 0) (addrBlock.getD (i * 2 + 1) 0)

/-- The address of a v2 header with this command and family. -/
def addrOf (isProxy : Bool) (family : UInt8) (addrBlock : List UInt8) : ParsedAddr :=
  if !isProxy then none
  else if family = 1 ∧ 12 ≤ addrBlock.length then
    some (Ipv4.display ((addrBlock.take 4).map UInt8.toNat))
  else if family = 2 ∧ 36 ≤ addrBlock.length then
    some (Ipv6.display (segments addrBlock))
  else none

/-- `parse_v2`. -/
def parseV2 (reads : List (List UInt8)) (buf : List UInt8) :
    Option (PrefixedIo × ParsedAddr) := do
  let (buf, reads) ← readAtLeast 16 buf reads
  let verCmd := buf.getD 12 0
  if verCmd >>> 4 ≠ 2 then none
  else
    let isProxy := verCmd &&& 0x0F == 1
    let family := buf.getD 13 0 >>> 4
    let len := fromBeBytes (buf.getD 14 0) (buf.getD 15 0)
    let (buf, reads) ← readAtLeast (16 + len) buf reads
    let addrBlock := (buf.drop 16).take len
    return (.new reads (buf.drop (16 + len)), addrOf isProxy family addrBlock)

/-- `read_header`. -/
def readHeader (reads : List (List UInt8)) : Option (PrefixedIo × ParsedAddr) := do
  let (buf, reads) ← readAtLeast 12 [] reads
  if buf.take 12 = sigV2 then parseV2 reads buf
  else if sigV1.isPrefixOf buf then parseV1 reads buf
  else none

/-! ## What is left over is read before the rest -/

/-- The bytes that are still to be read. -/
def PrefixedIo.remaining (io : PrefixedIo) : List UInt8 :=
  io.leftover.drop io.pos ++ io.inner.flatten

/-- A read takes the next bytes. -/
theorem pollRead_remaining (io : PrefixedIo) (room : Nat) :
    (io.pollRead room).1 ++ (io.pollRead room).2.remaining = io.remaining := by
  unfold PrefixedIo.pollRead PrefixedIo.remaining
  split
  case isTrue =>
    dsimp only
    rw [← List.append_assoc, ← List.drop_drop, List.take_append_drop]
  case isFalse hpos =>
    have hdrop : io.leftover.drop io.pos = [] := List.drop_eq_nil_of_le (by omega)
    split
    case h_1 hinner => simp
    case h_2 chunk reads hinner =>
      simp only [hdrop, hinner, List.nil_append]
      split
      case isTrue hle => simp [List.take_of_length_le hle]
      case isFalse => simp [← List.append_assoc, List.take_append_drop]

/-- Only at the end it takes none. -/
theorem remaining_eq_nil {io : PrefixedIo} {room : Nat} (hroom : 0 < room)
    (hinner : ∀ chunk ∈ io.inner, 0 < chunk.length) (h : (io.pollRead room).1 = []) :
    io.remaining = [] := by
  unfold PrefixedIo.pollRead at h
  split at h
  case isTrue hpos =>
    simp only [List.take_eq_nil_iff, List.drop_eq_nil_iff, List.length_drop] at h
    omega
  case isFalse hpos =>
    split at h
    case h_1 hnil =>
      rw [PrefixedIo.remaining, hnil, List.drop_eq_nil_of_le (by omega)]
      rfl
    case h_2 chunk reads hcons =>
      have hchunk := hinner chunk (hcons ▸ List.mem_cons_self ..)
      have hlength := congrArg List.length h
      simp only [List.length_take, List.length_nil] at hlength
      omega

@[simp] theorem remaining_new (inner : List (List UInt8)) (leftover : List UInt8) :
    (PrefixedIo.new inner leftover).remaining = leftover ++ inner.flatten := rfl

/-- What `read_header` has for its caller: the address, and the bytes that are still to be
read. -/
def Conn.outcome (c : Conn) : Option (ParsedAddr × List UInt8) :=
  (readHeader c.reads).map fun r => (r.2, r.1.remaining)

/-- Whether a list that is long enough starts with some bytes shows in its first part. -/
theorem isPrefix_append_iff {sig buf more : List UInt8} (h : sig.length ≤ buf.length) :
    sig <+: buf ++ more ↔ sig <+: buf :=
  ⟨fun hsig => List.prefix_of_prefix_length_le hsig (List.prefix_append buf more) h,
    fun hsig => hsig.trans (List.prefix_append buf more)⟩

/-! ## Lines -/

/-- The bytes of a text. -/
def utf8 (text : List Char) : List UInt8 := text.flatMap String.utf8EncodeChar

theorem fromUtf8_utf8 (text : List Char) : fromUtf8 (utf8 text) = some text := by
  have hdecode := @List.utf8Decode?_utf8Encode text
  rw [List.utf8Encode] at hdecode
  rw [fromUtf8, utf8, hdecode]
  rfl

theorem fromUtf8_eq_some {bytes : List UInt8} {text : List Char} :
    fromUtf8 bytes = some text ↔ bytes = utf8 text := by
  constructor
  · intro h
    obtain ⟨chars, hchars, rfl⟩ := Option.map_eq_some_iff.1 h
    have hsome : bytes.toByteArray.utf8Decode?.isSome := by rw [hchars]; rfl
    have hencode := @ByteArray.utf8Encode_get_utf8Decode? bytes.toByteArray hsome
    simp only [hchars, Option.get_some, List.utf8Encode] at hencode
    have hbytes := congrArg (fun b => b.data.toList) hencode
    simpa [utf8] using hbytes.symm
  · rintro rfl
    exact fromUtf8_utf8 text

/-- A v1 line names a protocol. -/
structure Tagged (line : List Char) : Prop where
  proxy : (line.splitOn ' ')[0]? = some "PROXY".toList
  protocol : (line.splitOn ' ')[1]? ∈
    [some "TCP4".toList, some "TCP6".toList, some "UNKNOWN".toList]

/-- The word that `parse_v1` takes for the source address. -/
def sourceWord (line : List Char) : ParsedAddr :=
  if (line.splitOn ' ')[1]? = some "UNKNOWN".toList then none else (line.splitOn ' ')[2]?

theorem parseLine_utf8_of_tagged {line : List Char} (h : Tagged line) :
    parseLine (utf8 line) = some (sourceWord line) := by
  have hprotocol := h.protocol
  simp only [List.mem_cons, List.not_mem_nil, or_false] at hprotocol
  simp only [parseLine, fromUtf8_utf8, bind, Option.bind_some, h.proxy, ne_eq,
    not_true_eq_false, if_false, sourceWord]
  rcases hprotocol with hprotocol | hprotocol | hprotocol <;> rw [hprotocol] <;> rfl

theorem parseLine_eq_some {bytes : List UInt8} {addr : ParsedAddr} :
    parseLine bytes = some addr ↔
      ∃ line, bytes = utf8 line ∧ Tagged line ∧ addr = sourceWord line := by
  constructor
  · intro h
    obtain ⟨line, hline, hparts⟩ := Option.bind_eq_some_iff.1 h
    rw [fromUtf8_eq_some] at hline
    subst hline
    have htagged : Tagged line := by
      dsimp only at hparts
      split at hparts
      case isTrue => cases hparts
      case isFalse hproxy =>
        refine ⟨not_not.1 hproxy, ?_⟩
        simp only [List.mem_cons, List.not_mem_nil, or_false]
        split at hparts
        case isTrue htcp => exact htcp.imp_right Or.inl
        case isFalse =>
          split at hparts
          case isTrue hunknown => exact Or.inr (Or.inr hunknown)
          case isFalse => cases hparts
    rw [parseLine_utf8_of_tagged htagged] at h
    exact ⟨line, rfl, htagged, (Option.some.inj h).symm⟩
  · rintro ⟨line, rfl, htagged, rfl⟩
    exact parseLine_utf8_of_tagged htagged

@[simp] theorem utf8_append (s t : List Char) : utf8 (s ++ t) = utf8 s ++ utf8 t :=
  List.flatMap_append

/-- The words of a line that names a protocol. -/
theorem Tagged.words {line : List Char} (h : Tagged line) :
    ∃ proto words, line.splitOn ' ' = "PROXY".toList :: proto :: words ∧
      (proto = "TCP4".toList ∨ proto = "TCP6".toList ∨ proto = "UNKNOWN".toList) := by
  obtain ⟨hproxy, hprotocol⟩ := h
  rcases hwords : line.splitOn ' ' with _ | ⟨first, _ | ⟨proto, words⟩⟩
  · exact absurd hwords (List.splitOn_ne_nil ' ' line)
  · rw [hwords] at hprotocol
    simp at hprotocol
  · rw [hwords] at hproxy hprotocol
    obtain rfl := Option.some.inj hproxy
    simp only [List.getElem?_cons_succ, List.getElem?_cons_zero, List.mem_cons,
      Option.some.injEq, List.not_mem_nil, or_false] at hprotocol
    exact ⟨proto, words, rfl, hprotocol⟩

/-- The line is these two words, or goes on behind them with a space. -/
theorem starts_of_words {line proto : List Char} {words : List (List Char)}
    (hwords : line.splitOn ' ' = "PROXY".toList :: proto :: words)
    (hproto : proto = "TCP4".toList ∨ proto = "TCP6".toList ∨ proto = "UNKNOWN".toList) :
    line = "PROXY ".toList ++ proto ∨ "PROXY ".toList ++ proto ++ [' '] <+: line := by
  have hsplit : ("PROXY ".toList ++ proto).splitOn ' ' = ["PROXY".toList, proto] := by
    rcases hproto with rfl | rfl | rfl <;> decide
  refine splitOn_isPrefix_iff.1 ?_
  rw [hsplit, hwords]
  exact ⟨words, rfl⟩

/-- A line that names a protocol starts as `read_header` asks. -/
theorem Tagged.sigV1 {line : List Char} (h : Tagged line) : sigV1 <+: utf8 line := by
  obtain ⟨proto, words, hwords, hproto⟩ := h.words
  have hstart : "PROXY ".toList <+: line := by
    rcases starts_of_words hwords hproto with rfl | hline
    · exact List.prefix_append _ _
    · rw [List.append_assoc] at hline
      exact (List.prefix_append _ _).trans hline
  obtain ⟨rest, rfl⟩ := hstart
  rw [utf8_append]
  exact List.prefix_append (utf8 "PROXY ".toList) (utf8 rest)

/-! ## Reading into the buffer -/

section Reading

variable {want : Nat} {buf : List UInt8} {reads : List (List UInt8)}

/-- The buffer takes in whole reads, and no more than it needs. -/
theorem readAtLeast_some {r : List UInt8 × List (List UInt8)}
    (h : readAtLeast want buf reads = some r) :
    want ≤ r.1.length ∧ ∃ taken, reads = taken ++ r.2 ∧ r.1 = buf ++ taken.flatten ∧
      ∀ t, t <+: taken → t = taken ∨ (buf ++ t.flatten).length < want := by
  induction reads generalizing buf with
  | nil =>
      simp only [readAtLeast] at h
      split at h <;> cases h
      exact ⟨Nat.not_lt.1 ‹_›, [], rfl, by simp, by simp⟩
  | cons chunk reads ih =>
      simp only [readAtLeast] at h
      split at h
      case isTrue hlt =>
        split at h
        · cases h
        · obtain ⟨hlength, taken, hreads, hbuf, hneeds⟩ := ih h
          refine ⟨hlength, chunk :: taken, by rw [hreads]; rfl, by rw [hbuf]; simp, ?_⟩
          intro t ht
          cases t with
          | nil => exact Or.inr (by simpa using hlt)
          | cons next t =>
              obtain ⟨rfl, htail⟩ := List.cons_prefix_cons.1 ht
              rw [List.flatten_cons, ← List.append_assoc]
              exact (hneeds t htail).imp_left (congrArg (next :: ·))
      case isFalse =>
        cases h
        exact ⟨Nat.not_lt.1 ‹_›, [], rfl, by simp, by simp⟩

theorem readAtLeast_flatten {r : List UInt8 × List (List UInt8)}
    (h : readAtLeast want buf reads = some r) :
    r.1 ++ r.2.flatten = buf ++ reads.flatten := by
  obtain ⟨-, taken, hreads, hbuf, -⟩ := readAtLeast_some h
  rw [hreads, hbuf]
  simp

theorem readAtLeast_nonempty {r : List UInt8 × List (List UInt8)}
    (h : readAtLeast want buf reads = some r) (hreads : ∀ chunk ∈ reads, 0 < chunk.length) :
    ∀ chunk ∈ r.2, 0 < chunk.length := by
  obtain ⟨-, taken, htaken, -, -⟩ := readAtLeast_some h
  exact fun chunk hchunk => hreads chunk (htaken ▸ List.mem_append_right taken hchunk)

/-- It succeeds when there are enough bytes. -/
theorem readAtLeast_isSome (hreads : ∀ chunk ∈ reads, 0 < chunk.length) :
    (readAtLeast want buf reads).isSome ↔ want ≤ (buf ++ reads.flatten).length := by
  induction reads generalizing buf with
  | nil => simp [readAtLeast]
  | cons chunk reads ih =>
      have hchunk := hreads chunk (List.mem_cons_self ..)
      have htail : (readAtLeast want (buf ++ chunk) reads).isSome ↔
          want ≤ (buf ++ chunk ++ reads.flatten).length :=
        ih fun c hc => hreads c (List.mem_cons_of_mem _ hc)
      simp only [readAtLeast]
      split
      case isTrue =>
        rw [if_neg (by omega), htail]
        simp
      case isFalse =>
        simp only [List.length_append, Option.isSome_some, true_iff]
        omega

theorem readAtLeast_eq_none (hreads : ∀ chunk ∈ reads, 0 < chunk.length) :
    readAtLeast want buf reads = none ↔ (buf ++ reads.flatten).length < want := by
  rw [← Option.not_isSome_iff_eq_none, readAtLeast_isSome hreads, Nat.not_le]

/-- One byte more is one read more. -/
theorem readAtLeast_succ {chunk : List UInt8} (hchunk : 0 < chunk.length) :
    readAtLeast (buf.length + 1) buf (chunk :: reads) = some (buf ++ chunk, reads) := by
  rw [readAtLeast, if_pos (Nat.lt_succ_self _), if_neg (by omega)]
  cases reads with
  | nil => rw [readAtLeast, if_neg (by rw [List.length_append]; omega)]
  | cons next reads => rw [readAtLeast, if_neg (by rw [List.length_append]; omega)]

end Reading

/-! ## The end of the line -/

theorem findCrlf_cons (a : UInt8) (buf : List UInt8) :
    findCrlf (a :: buf) =
      if a = 0x0D ∧ buf.head? = some 0x0A then some 0 else (findCrlf buf).map (· + 1) := by
  cases buf with
  | nil => simp [findCrlf]
  | cons b rest => simp [findCrlf]

theorem findCrlf_le {buf : List UInt8} {e : Nat} (h : findCrlf buf = some e) :
    e + 2 ≤ buf.length := by
  induction buf generalizing e with
  | nil => cases h
  | cons a buf ih =>
      rw [findCrlf_cons] at h
      split at h
      case isTrue hcrlf =>
        cases buf with
        | nil => simp at hcrlf
        | cons b rest =>
            cases h
            simp
      case isFalse =>
        obtain ⟨e', he', rfl⟩ := Option.map_eq_some_iff.1 h
        have htail := ih he'
        rw [List.length_cons]
        omega

/-- The line, its CRLF and what follows. -/
theorem findCrlf_split {buf : List UInt8} {e : Nat} (h : findCrlf buf = some e) :
    buf = buf.take e ++ 0x0D :: 0x0A :: buf.drop (e + 2) := by
  induction buf generalizing e with
  | nil => cases h
  | cons a buf ih =>
      rw [findCrlf_cons] at h
      split at h
      case isTrue hcrlf =>
        obtain ⟨rfl, hhead⟩ := hcrlf
        obtain ⟨rest, rfl⟩ : ∃ rest, buf = 0x0A :: rest := by
          cases buf with
          | nil => cases hhead
          | cons b rest => exact ⟨rest, by rw [Option.some.inj hhead]⟩
        cases h
        rfl
      case isFalse =>
        obtain ⟨e', he', rfl⟩ := Option.map_eq_some_iff.1 h
        exact congrArg (a :: ·) (ih he')

/-- The first line of a stream, without its CRLF. -/
structure FirstLine (s : List UInt8) (line : List Char) : Prop where
  crlf : findCrlf s = some (utf8 line).length
  text : utf8 line <+: s

theorem firstLine_of_take {s : List UInt8} {e : Nat} {line : List Char}
    (hcrlf : findCrlf s = some e) (hbytes : s.take e = utf8 line) :
    FirstLine s line ∧ (utf8 line).length = e := by
  have hle := findCrlf_le hcrlf
  have hlength : (utf8 line).length = e := by
    rw [← hbytes, List.length_take]
    omega
  exact ⟨⟨hlength ▸ hcrlf, hbytes ▸ List.take_prefix e s⟩, hlength⟩

/-- More bytes do not move the first CRLF. -/
theorem findCrlf_append {buf : List UInt8} {e : Nat} (h : findCrlf buf = some e)
    (more : List UInt8) : findCrlf (buf ++ more) = some e := by
  induction buf generalizing e with
  | nil => cases h
  | cons a buf ih =>
      cases buf with
      | nil => simp [findCrlf] at h
      | cons b rest =>
          simp only [List.cons_append, findCrlf] at h ih ⊢
          by_cases hcrlf : a = 0x0D ∧ b = 0x0A
          · rwa [if_pos hcrlf] at h ⊢
          · rw [if_neg hcrlf] at h ⊢
            obtain ⟨e', he', rfl⟩ := Option.map_eq_some_iff.1 h
            rw [ih he']
            rfl

theorem findCrlf_eq_none_of_append {buf more : List UInt8}
    (h : findCrlf (buf ++ more) = none) : findCrlf buf = none := by
  cases hbuf : findCrlf buf with
  | none => rfl
  | some e => rw [findCrlf_append hbuf] at h; cases h

/-- A buffer that the first CRLF lies in. -/
theorem findCrlf_of_append {buf more : List UInt8} {e : Nat}
    (h : findCrlf (buf ++ more) = some e) :
    findCrlf buf = if e + 2 ≤ buf.length then some e else none := by
  cases hbuf : findCrlf buf with
  | some e' =>
      obtain rfl := Option.some.inj ((findCrlf_append hbuf more).symm.trans h)
      rw [if_pos (findCrlf_le hbuf)]
  | none =>
      rw [if_neg]
      intro hle
      induction buf generalizing e with
      | nil => simp at hle
      | cons a buf ih =>
          rw [findCrlf_cons] at hbuf
          rw [List.cons_append, findCrlf_cons] at h
          split at hbuf
          case isTrue => cases hbuf
          case isFalse hcrlf =>
            rw [Option.map_eq_none_iff] at hbuf
            split at h
            case isTrue hcrlf' =>
              cases h
              refine hcrlf ⟨hcrlf'.1, ?_⟩
              cases buf with
              | nil => simp at hle
              | cons b rest => exact hcrlf'.2
            case isFalse =>
              obtain ⟨e', he', rfl⟩ := Option.map_eq_some_iff.1 h
              rw [List.length_cons] at hle
              exact ih he' hbuf (by omega)

theorem readLine_found {buf : List UInt8} {e : Nat} (h : findCrlf buf = some e)
    (reads : List (List UInt8)) : readLine buf reads = some (e, buf, reads) := by
  rw [readLine]
  simp [h]

theorem readLine_long {buf : List UInt8} (h : findCrlf buf = none)
    (hlong : maxV1 < buf.length) (reads : List (List UInt8)) : readLine buf reads = none := by
  rw [readLine]
  simp [h, hlong]

theorem readLine_nil {buf : List UInt8} (h : findCrlf buf = none) : readLine buf [] = none := by
  rw [readLine]
  simp only [h]
  split
  · rfl
  · split
    case h_1 => rfl
    case h_2 r hr => simp [readAtLeast] at hr

theorem readLine_cons {buf chunk : List UInt8} {reads : List (List UInt8)}
    (h : findCrlf buf = none) (hshort : buf.length ≤ maxV1) (hchunk : 0 < chunk.length) :
    readLine buf (chunk :: reads) = readLine (buf ++ chunk) reads := by
  conv_lhs => rw [readLine]
  simp only [h, if_neg (Nat.not_lt.2 hshort)]
  split
  case h_1 hnone => simp [readAtLeast_succ hchunk] at hnone
  case h_2 r hr =>
    rw [readAtLeast_succ hchunk] at hr
    cases hr
    rfl

/-- No read ends behind the longest line that is allowed and before byte `n`. -/
def Clear (buf : List UInt8) (reads : List (List UInt8)) (n : Nat) : Prop :=
  ∀ taken, taken <+: reads →
    (buf ++ taken.flatten).length ≤ maxV1 ∨ n ≤ (buf ++ taken.flatten).length

theorem clear_cons {buf chunk : List UInt8} {reads : List (List UInt8)} {n : Nat}
    (hshort : buf.length ≤ maxV1) :
    Clear buf (chunk :: reads) n ↔ Clear (buf ++ chunk) reads n := by
  constructor
  · intro h taken htaken
    have hcons := h (chunk :: taken) (List.cons_prefix_cons.2 ⟨rfl, htaken⟩)
    simpa using hcons
  · intro h taken htaken
    cases taken with
    | nil => exact Or.inl (by simpa using hshort)
    | cons next taken =>
        obtain ⟨rfl, htail⟩ := List.cons_prefix_cons.1 htaken
        simpa using h taken htail

theorem Clear.now {buf : List UInt8} {reads : List (List UInt8)} {n : Nat}
    (h : Clear buf reads n) : buf.length ≤ maxV1 ∨ n ≤ buf.length := by
  simpa using h [] List.nil_prefix

theorem clear_of_le {buf : List UInt8} {n : Nat} (h : n ≤ buf.length)
    (reads : List (List UInt8)) : Clear buf reads n := by
  intro taken _
  rw [List.length_append]
  exact Or.inr (by omega)

section Line

variable {buf : List UInt8} {reads : List (List UInt8)} {e : Nat}

/-- The loop finds the first CRLF of the stream when no read ends before it behind the
longest line. -/
theorem readLine_of_clear (hreads : ∀ chunk ∈ reads, 0 < chunk.length)
    (hcrlf : findCrlf (buf ++ reads.flatten) = some e) (hclear : Clear buf reads (e + 2)) :
    ∃ r, readLine buf reads = some (e, r) ∧ e + 2 ≤ r.1.length ∧
      r.1 ++ r.2.flatten = buf ++ reads.flatten := by
  induction reads generalizing buf with
  | nil =>
      rw [List.flatten_nil, List.append_nil] at hcrlf
      exact ⟨_, readLine_found hcrlf [], findCrlf_le hcrlf, rfl⟩
  | cons chunk reads ih =>
      have hbuf := findCrlf_of_append hcrlf
      by_cases hle : e + 2 ≤ buf.length
      · rw [if_pos hle] at hbuf
        exact ⟨_, readLine_found hbuf _, hle, rfl⟩
      · rw [if_neg hle] at hbuf
        have hshort := hclear.now.resolve_right hle
        have hchunk := hreads chunk (List.mem_cons_self ..)
        rw [clear_cons hshort] at hclear
        rw [List.flatten_cons, ← List.append_assoc] at hcrlf ⊢
        rw [readLine_cons hbuf hshort hchunk]
        exact ih (fun c hc => hreads c (List.mem_cons_of_mem _ hc)) hcrlf hclear

/-- A read that ends there makes the loop give up. -/
theorem readLine_of_not_clear (hreads : ∀ chunk ∈ reads, 0 < chunk.length)
    (hcrlf : findCrlf (buf ++ reads.flatten) = some e) (hclear : ¬ Clear buf reads (e + 2)) :
    readLine buf reads = none := by
  induction reads generalizing buf with
  | nil =>
      rw [List.flatten_nil, List.append_nil] at hcrlf
      exact absurd (clear_of_le (findCrlf_le hcrlf) []) hclear
  | cons chunk reads ih =>
      have hbuf := findCrlf_of_append hcrlf
      rw [if_neg fun hle => hclear (clear_of_le hle _)] at hbuf
      by_cases hshort : buf.length ≤ maxV1
      · have hchunk := hreads chunk (List.mem_cons_self ..)
        rw [clear_cons hshort] at hclear
        rw [List.flatten_cons, ← List.append_assoc] at hcrlf
        rw [readLine_cons hbuf hshort hchunk]
        exact ih (fun c hc => hreads c (List.mem_cons_of_mem _ hc)) hcrlf hclear
      · exact readLine_long hbuf (Nat.not_le.1 hshort) _

/-- Without a CRLF it does not succeed. -/
theorem readLine_of_no_crlf (hreads : ∀ chunk ∈ reads, 0 < chunk.length)
    (hcrlf : findCrlf (buf ++ reads.flatten) = none) : readLine buf reads = none := by
  induction reads generalizing buf with
  | nil => exact readLine_nil (findCrlf_eq_none_of_append hcrlf)
  | cons chunk reads ih =>
      have hbuf := findCrlf_eq_none_of_append hcrlf
      by_cases hshort : buf.length ≤ maxV1
      · have hchunk := hreads chunk (List.mem_cons_self ..)
        rw [List.flatten_cons, ← List.append_assoc] at hcrlf
        rw [readLine_cons hbuf hshort hchunk]
        exact ih (fun c hc => hreads c (List.mem_cons_of_mem _ hc)) hcrlf
      · exact readLine_long hbuf (Nat.not_le.1 hshort) _

end Line

/-! ## The header of a stream -/

section Header

variable (c : Conn)

theorem Conn.nonempty (c : Conn) : ∀ chunk ∈ c.reads, 0 < chunk.length :=
  fun chunk h => (c.size chunk h).1

/-- No read ends behind the longest line that is allowed and before byte `n`. -/
def Conn.Clear (n : Nat) : Prop := Proxy.Clear [] c.reads n

/-- The reads that the first buffer takes in are short enough. -/
theorem clear_of_readAtLeast {want : Nat} {reads : List (List UInt8)}
    {r : List UInt8 × List (List UInt8)} (h : readAtLeast want [] reads = some r)
    (hwant : want ≤ maxV1) (n : Nat) : Clear r.1 r.2 n ↔ Clear [] reads n := by
  obtain ⟨-, taken, rfl, hbuf, hneeds⟩ := readAtLeast_some h
  rw [List.nil_append] at hbuf
  constructor
  · intro hclear t ht
    rcases List.prefix_or_prefix_of_prefix ht (List.prefix_append taken r.2) with ht' | ⟨t', rfl⟩
    · rcases hneeds t ht' with rfl | hshort
      · rw [List.nil_append, ← hbuf]
        exact hclear.now
      · exact Or.inl (by omega)
    · have htail := hclear t' ((List.prefix_append_right_inj taken).1 ht)
      rw [hbuf] at htail
      simpa using htail
  · intro hclear t ht
    have hall := hclear (taken ++ t) ((List.prefix_append_right_inj taken).2 ht)
    rw [hbuf]
    simpa using hall

/-- The first twelve bytes tell the versions apart. -/
theorem outcome_eq {buf : List UInt8} {reads : List (List UInt8)}
    (h : readAtLeast 12 [] c.reads = some (buf, reads)) :
    c.outcome = (if sigV2 <+: c.stream then parseV2 reads buf
      else if sigV1 <+: c.stream then parseV1 reads buf else none).map
        fun r => (r.2, r.1.remaining) := by
  have hlength : 12 ≤ buf.length := (readAtLeast_some h).1
  have hstream : buf ++ reads.flatten = c.stream := readAtLeast_flatten h
  have hstarts : ∀ {sig : List UInt8}, sig.length ≤ 12 → (sig <+: c.stream ↔ sig <+: buf) :=
    fun hsig => hstream ▸ isPrefix_append_iff (hsig.trans hlength)
  have hv2 : buf.take 12 = sigV2 ↔ sigV2 <+: c.stream := by
    have hsig : sigV2.length ≤ 12 := Nat.le_refl 12
    rw [hstarts hsig, List.prefix_iff_eq_take, eq_comm]
    rfl
  have hv1 : sigV1.isPrefixOf buf = true ↔ sigV1 <+: c.stream := by
    rw [hstarts (by decide), List.isPrefixOf_iff_prefix]
  simp only [Conn.outcome, readHeader, h, bind, Option.bind_some, hv2, hv1]

theorem outcome_short (h : c.stream.length < 12) : c.outcome = none := by
  have hread : readAtLeast 12 [] c.reads = none := (readAtLeast_eq_none c.nonempty).2 h
  simp [Conn.outcome, readHeader, hread]

/-- The first buffer and the reads behind it. -/
theorem read_twelve (h : 12 ≤ c.stream.length) :
    ∃ buf reads, readAtLeast 12 [] c.reads = some (buf, reads) ∧
      buf ++ reads.flatten = c.stream ∧ ∀ chunk ∈ reads, 0 < chunk.length := by
  have hsome : (readAtLeast 12 [] c.reads).isSome := (readAtLeast_isSome c.nonempty).2 h
  obtain ⟨⟨buf, reads⟩, hr⟩ := Option.isSome_iff_exists.1 hsome
  exact ⟨buf, reads, hr, readAtLeast_flatten hr, readAtLeast_nonempty hr c.nonempty⟩

theorem outcome_other (hv2 : ¬ sigV2 <+: c.stream) (hv1 : ¬ sigV1 <+: c.stream) :
    c.outcome = none := by
  by_cases h : 12 ≤ c.stream.length
  · obtain ⟨buf, reads, hr, -, -⟩ := read_twelve c h
    rw [outcome_eq c hr, if_neg hv2, if_neg hv1]
    rfl
  · exact outcome_short c (Nat.not_le.1 h)

/-- The first line of version 1, with the bytes behind it. -/
def headerV1 (s : List UInt8) (e : Nat) : Option (ParsedAddr × List UInt8) :=
  (parseLine (s.take e)).map fun addr => (addr, s.drop (e + 2))

theorem not_sigV2_of_sigV1 {s : List UInt8} (hv1 : sigV1 <+: s) : ¬ sigV2 <+: s := by
  rintro ⟨rest, rfl⟩
  rw [isPrefix_append_iff (by decide)] at hv1
  exact absurd hv1 (by decide)

section V1

variable {c}

theorem outcome_v1_of_clear {e : Nat} (hv1 : sigV1 <+: c.stream) (h : 12 ≤ c.stream.length)
    (hcrlf : findCrlf c.stream = some e) (hclear : c.Clear (e + 2)) :
    c.outcome = headerV1 c.stream e := by
  obtain ⟨buf, reads, hr, hstream, hreads⟩ := read_twelve c h
  have hclear' : Clear buf reads (e + 2) :=
    (clear_of_readAtLeast hr (by decide) (e + 2)).2 hclear
  obtain ⟨⟨line, rest⟩, hline, hle, hflat⟩ :=
    readLine_of_clear hreads (hstream ▸ hcrlf) hclear'
  rw [hstream] at hflat
  dsimp only at hle hflat
  have htake : c.stream.take e = line.take e := by
    rw [← hflat, List.take_append_of_le_length (by omega)]
  have hdrop : c.stream.drop (e + 2) = line.drop (e + 2) ++ rest.flatten := by
    rw [← hflat, List.drop_append_of_le_length hle]
  rw [outcome_eq c hr, if_neg (not_sigV2_of_sigV1 hv1), if_pos hv1, headerV1, htake, hdrop]
  simp only [parseV1, hline, bind, Option.bind_some]
  cases parseLine (line.take e) <;> rfl

theorem outcome_v1_of_not_clear {e : Nat} (hv1 : sigV1 <+: c.stream)
    (hcrlf : findCrlf c.stream = some e) (hclear : ¬ c.Clear (e + 2)) : c.outcome = none := by
  by_cases h : 12 ≤ c.stream.length
  · obtain ⟨buf, reads, hr, hstream, hreads⟩ := read_twelve c h
    have hclear' : ¬ Clear buf reads (e + 2) := fun hall =>
      hclear ((clear_of_readAtLeast hr (by decide) (e + 2)).1 hall)
    have hline := readLine_of_not_clear hreads (hstream ▸ hcrlf) hclear'
    rw [outcome_eq c hr, if_neg (not_sigV2_of_sigV1 hv1), if_pos hv1]
    simp [parseV1, hline]
  · exact outcome_short c (Nat.not_le.1 h)

theorem outcome_v1_of_no_crlf (hv1 : sigV1 <+: c.stream) (hcrlf : findCrlf c.stream = none) :
    c.outcome = none := by
  by_cases h : 12 ≤ c.stream.length
  · obtain ⟨buf, reads, hr, hstream, hreads⟩ := read_twelve c h
    have hline := readLine_of_no_crlf hreads (hstream ▸ hcrlf)
    rw [outcome_eq c hr, if_neg (not_sigV2_of_sigV1 hv1), if_pos hv1]
    simp [parseV1, hline]
  · exact outcome_short c (Nat.not_le.1 h)

/-- A line that does not parse is refused however it arrives. -/
theorem outcome_v1_of_parseLine {e : Nat} (hv1 : sigV1 <+: c.stream)
    (hcrlf : findCrlf c.stream = some e) (hline : parseLine (c.stream.take e) = none) :
    c.outcome = none := by
  by_cases h : 12 ≤ c.stream.length
  · by_cases hclear : c.Clear (e + 2)
    · rw [outcome_v1_of_clear hv1 h hcrlf hclear, headerV1, hline]
      rfl
    · exact outcome_v1_of_not_clear hv1 hcrlf hclear
  · exact outcome_short c (Nat.not_le.1 h)

end V1

/-! ### Version 2 -/

/-- The length of the address block of a v2 header. -/
def lenV2 (s : List UInt8) : Nat := fromBeBytes (s.getD 14 0) (s.getD 15 0)

/-- The header of version 2, with the bytes behind it. -/
def headerV2 (s : List UInt8) : Option (ParsedAddr × List UInt8) :=
  if 16 + lenV2 s ≤ s.length ∧ s.getD 12 0 >>> 4 = 2 then
    some (addrOf (s.getD 12 0 &&& 0x0F == 1) (s.getD 13 0 >>> 4) ((s.drop 16).take (lenV2 s)),
      s.drop (16 + lenV2 s))
  else none

/-- The fields of the header lie in its first sixteen bytes. -/
theorem lenV2_append {buf : List UInt8} (h : 16 ≤ buf.length) (more : List UInt8) :
    lenV2 (buf ++ more) = lenV2 buf := by
  rw [lenV2, lenV2, List.getD_append _ _ _ _ (by omega), List.getD_append _ _ _ _ (by omega)]

theorem parseV2_eq {reads : List (List UInt8)} {buf : List UInt8}
    (hreads : ∀ chunk ∈ reads, 0 < chunk.length) :
    ((parseV2 reads buf).map fun r => (r.2, r.1.remaining)) =
      headerV2 (buf ++ reads.flatten) := by
  cases hhead : readAtLeast 16 buf reads with
  | none =>
      have hshort := (readAtLeast_eq_none hreads).1 hhead
      rw [headerV2, if_neg (by omega)]
      simp [parseV2, hhead]
  | some r =>
      obtain ⟨head, rest⟩ := r
      have hlength : 16 ≤ head.length := (readAtLeast_some hhead).1
      have hrest := readAtLeast_nonempty hhead hreads
      have hget : ∀ i < 16, (head ++ rest.flatten).getD i 0 = head.getD i 0 := fun i hi =>
        List.getD_append _ _ _ _ (by omega)
      rw [← readAtLeast_flatten hhead, headerV2, lenV2_append hlength, hget 12 (by omega),
        hget 13 (by omega)]
      by_cases hver : head.getD 12 0 >>> 4 = 2
      · cases hblock : readAtLeast (16 + lenV2 head) head rest with
        | none =>
            have hshort := (readAtLeast_eq_none hrest).1 hblock
            rw [if_neg (by dsimp only at *; omega)]
            rw [lenV2] at hblock
            simp only [parseV2, hhead, bind, Option.bind_some, hver, ne_eq, not_true_eq_false,
              if_false, hblock]
            rfl
        | some r =>
            obtain ⟨all, rest'⟩ := r
            have hall : 16 + lenV2 head ≤ all.length := (readAtLeast_some hblock).1
            have hflat : all ++ rest'.flatten = head ++ rest.flatten := readAtLeast_flatten hblock
            have htake : ((all ++ rest'.flatten).drop 16).take (lenV2 head) =
                (all.drop 16).take (lenV2 head) := by
              rw [List.drop_append_of_le_length (by omega), List.take_append_of_le_length]
              rw [List.length_drop]
              omega
            dsimp only
            rw [← hflat, if_pos ⟨by rw [List.length_append]; omega, hver⟩, htake,
              List.drop_append_of_le_length hall]
            rw [lenV2] at hblock
            simp only [parseV2, hhead, bind, Option.bind_some, hver, ne_eq, not_true_eq_false,
              if_false, hblock]
            rfl
      · rw [if_neg fun h => hver h.2]
        simp only [parseV2, hhead, bind, Option.bind_some, ne_eq, hver, not_false_eq_true,
          if_true]
        rfl

theorem outcome_v2 (hv2 : sigV2 <+: c.stream) : c.outcome = headerV2 c.stream := by
  obtain ⟨buf, reads, hr, hstream, hreads⟩ := read_twelve c hv2.length_le
  rw [outcome_eq c hr, if_pos hv2, parseV2_eq hreads, hstream]

end Header

/-! ## Fragmentation -/

/-- A read that ends between the longest line and byte `n`: it starts at the longest line
or before, so it does not reach farther than one chunk behind it. -/
theorem clear_far (c : Conn) {n : Nat} (hfar : maxV1 + chunkSize < n)
    (hn : n ≤ c.stream.length) : ¬ c.Clear n := by
  intro hclear
  have hshort : ∀ taken, taken <+: c.reads → taken.flatten.length ≤ maxV1 := by
    intro taken
    induction taken using List.reverseRecOn with
    | nil => exact fun _ => Nat.zero_le _
    | append_singleton taken chunk ih =>
        intro htaken
        have hbefore := ih ((List.prefix_append taken [chunk]).trans htaken)
        have hchunk := (c.size chunk (htaken.subset (by simp))).2
        have hnow := hclear (taken ++ [chunk]) htaken
        simp only [List.nil_append, List.flatten_append, List.flatten_singleton,
          List.length_append] at hnow ⊢
        omega
  have hall := hshort c.reads List.prefix_rfl
  rw [Conn.stream] at hn
  omega

theorem clear_near (c : Conn) {n : Nat} (hnear : n ≤ maxV1 + 1) : c.Clear n := by
  intro taken _
  omega

/-- Every byte arrives alone. -/
def Conn.bytewise (s : List UInt8) : Conn where
  reads := s.map fun b => [b]
  size := by
    intro chunk hchunk
    obtain ⟨b, -, rfl⟩ := List.mem_map.1 hchunk
    exact ⟨by simp, by simp [chunkSize]⟩

@[simp] theorem bytewise_stream (s : List UInt8) : (Conn.bytewise s).stream = s := by
  induction s with
  | nil => rfl
  | cons b s ih => exact congrArg (b :: ·) ih

theorem not_clear_bytewise {s : List UInt8} {n : Nat} (hlong : maxV1 + 1 < n)
    (hn : n ≤ s.length) : ¬ (Conn.bytewise s).Clear n := by
  intro hclear
  have hcut := hclear ((s.take (maxV1 + 1)).map fun b => [b])
    (by rw [List.map_take]; exact List.take_prefix _ _)
  have hflat : ((s.take (maxV1 + 1)).map fun b => [b]).flatten = s.take (maxV1 + 1) :=
    bytewise_stream (s.take (maxV1 + 1))
  rw [List.nil_append, hflat, List.length_take] at hcut
  omega

/-- The longest line that is allowed arrives in one read, a whole chunk in the next one, and
the other bytes alone. -/
def Conn.jump (s : List UInt8) (h : maxV1 < s.length) : Conn where
  reads := s.take maxV1 :: (s.drop maxV1).take chunkSize ::
    (Conn.bytewise (s.drop (maxV1 + chunkSize))).reads
  size := by
    intro chunk hchunk
    rcases List.mem_cons.1 hchunk with rfl | hchunk
    · rw [List.length_take]
      simp only [maxV1, chunkSize] at h ⊢
      omega
    rcases List.mem_cons.1 hchunk with rfl | hchunk
    · rw [List.length_take, List.length_drop]
      simp only [maxV1, chunkSize] at h ⊢
      omega
    · exact (Conn.bytewise _).size chunk hchunk

@[simp] theorem jump_stream (s : List UInt8) (h : maxV1 < s.length) :
    (Conn.jump s h).stream = s := by
  have htail : (Conn.bytewise (s.drop (maxV1 + chunkSize))).reads.flatten =
      s.drop (maxV1 + chunkSize) := bytewise_stream _
  rw [Conn.stream, Conn.jump, List.flatten_cons, List.flatten_cons, htail, ← List.drop_drop,
    List.take_append_drop, List.take_append_drop]

theorem clear_jump {s : List UInt8} (h : maxV1 < s.length) {n : Nat}
    (hn : n ≤ s.length) (hreach : n ≤ maxV1 + chunkSize) : (Conn.jump s h).Clear n := by
  intro taken htaken
  rw [List.nil_append]
  cases taken with
  | nil => exact Or.inl (Nat.zero_le _)
  | cons first taken =>
      obtain ⟨rfl, htail⟩ := List.cons_prefix_cons.1 htaken
      cases taken with
      | nil =>
          refine Or.inl ?_
          rw [List.flatten_singleton, List.length_take]
          omega
      | cons second taken =>
          obtain ⟨rfl, -⟩ := List.cons_prefix_cons.1 htail
          refine Or.inr ?_
          simp only [List.flatten_cons, List.length_append, List.length_take, List.length_drop]
          omega

/-- The first line names a protocol and is longer than the specification allows, by more
than a byte and by no more than what one read can add to a buffer that is not too long. -/
def Straddling (s : List UInt8) : Prop :=
  ∃ line, FirstLine s line ∧ Tagged line ∧
    maxV1 + 1 < (utf8 line).length + 2 ∧ (utf8 line).length + 2 ≤ maxV1 + chunkSize

theorem outcome_eq_of_not_straddling {s : List UInt8} (hs : ¬ Straddling s) {c₁ c₂ : Conn}
    (h₁ : c₁.stream = s) (h₂ : c₂.stream = s) : c₁.outcome = c₂.outcome := by
  subst h₁
  by_cases hv2 : sigV2 <+: c₁.stream
  · rw [outcome_v2 c₁ hv2, outcome_v2 c₂ (h₂ ▸ hv2), h₂]
  by_cases hv1 : sigV1 <+: c₁.stream
  · have hv1' : sigV1 <+: c₂.stream := h₂ ▸ hv1
    by_cases hshort : c₁.stream.length < 12
    · rw [outcome_short c₁ hshort, outcome_short c₂ (h₂ ▸ hshort)]
    rw [Nat.not_lt] at hshort
    cases hcrlf : findCrlf c₁.stream with
    | none =>
        rw [outcome_v1_of_no_crlf hv1 hcrlf, outcome_v1_of_no_crlf hv1' (h₂ ▸ hcrlf)]
    | some e =>
        have hcrlf' : findCrlf c₂.stream = some e := h₂ ▸ hcrlf
        have hle := findCrlf_le hcrlf
        by_cases hnear : e + 2 ≤ maxV1 + 1
        · rw [outcome_v1_of_clear hv1 hshort hcrlf (clear_near c₁ hnear),
            outcome_v1_of_clear hv1' (h₂ ▸ hshort) hcrlf' (clear_near c₂ hnear), h₂]
        by_cases hfar : maxV1 + chunkSize < e + 2
        · rw [outcome_v1_of_not_clear hv1 hcrlf (clear_far c₁ hfar hle),
            outcome_v1_of_not_clear hv1' hcrlf' (clear_far c₂ hfar (h₂ ▸ hle))]
        -- between the two the line does not parse
        have hline : parseLine (c₁.stream.take e) = none := by
          rw [Option.eq_none_iff_forall_ne_some]
          intro addr haddr
          obtain ⟨line, hbytes, htagged, -⟩ := parseLine_eq_some.1 haddr
          obtain ⟨hfirst, hlength⟩ := firstLine_of_take hcrlf hbytes
          exact hs ⟨line, hfirst, htagged, by omega, by omega⟩
        rw [outcome_v1_of_parseLine hv1 hcrlf hline,
          outcome_v1_of_parseLine hv1' hcrlf' (h₂ ▸ hline)]
  · rw [outcome_other c₁ hv2 hv1, outcome_other c₂ (h₂ ▸ hv2) (h₂ ▸ hv1)]

/-- The address and the bytes behind the header hang on the stream alone, for all streams
but those. -/
theorem fragmentation_iff (s : List UInt8) :
    (∀ c₁ c₂ : Conn, c₁.stream = s → c₂.stream = s → c₁.outcome = c₂.outcome) ↔
      ¬ Straddling s := by
  constructor
  · rintro hall ⟨line, ⟨hcrlf, hline⟩, htagged, hlong, hreach⟩
    have hle := findCrlf_le hcrlf
    have hroom : maxV1 < s.length := by omega
    have hv1 : sigV1 <+: s := htagged.sigV1.trans hline
    have hsame := hall (Conn.bytewise s) (Conn.jump s hroom) (by simp) (by simp)
    rw [outcome_v1_of_not_clear (by simpa using hv1) (by simpa using hcrlf)
        (not_clear_bytewise hlong hle),
      outcome_v1_of_clear (by simpa using hv1) (by simp only [maxV1, jump_stream] at *; omega)
        (by simpa using hcrlf) (clear_jump hroom hle hreach), jump_stream, headerV1] at hsame
    rw [← List.prefix_iff_eq_take.1 hline, parseLine_utf8_of_tagged htagged] at hsame
    cases hsame
  · exact fun hs _ _ h₁ h₂ => outcome_eq_of_not_straddling hs h₁ h₂

/-- A line of 109 bytes with its CRLF, and a byte behind it. -/
def longLine : List UInt8 :=
  utf8 ("PROXY UNKNOWN ".toList ++ List.replicate 93 'x') ++ [0x0D, 0x0A, 0x47]

set_option maxRecDepth 2000 in
/-- Byte by byte the line is refused; in two reads it is accepted. -/
theorem reads_matter :
    ¬ ∀ s : List UInt8, ∀ c₁ c₂ : Conn, c₁.stream = s → c₂.stream = s →
      c₁.outcome = c₂.outcome := by
  intro hall
  have hcrlf : findCrlf longLine = some 107 := by decide
  have hroom : maxV1 < longLine.length := by decide
  have hsame := hall longLine (Conn.bytewise longLine) (Conn.jump longLine hroom) (by simp)
    (by simp)
  have hv1 : sigV1 <+: longLine := by decide
  have htagged : Tagged ("PROXY UNKNOWN ".toList ++ List.replicate 93 'x') :=
    ⟨by decide, by decide⟩
  have hline : longLine.take 107 =
      utf8 ("PROXY UNKNOWN ".toList ++ List.replicate 93 'x') := by decide
  rw [outcome_v1_of_not_clear (by simpa using hv1) (by simpa using hcrlf)
      (not_clear_bytewise (by decide) (by decide)),
    outcome_v1_of_clear (by simpa using hv1) (by rw [jump_stream]; decide)
      (by simpa using hcrlf) (clear_jump hroom (by decide) (by decide)), jump_stream, headerV1,
    hline, parseLine_utf8_of_tagged htagged] at hsame
  cases hsame

end Proxy
end OxideHttp
