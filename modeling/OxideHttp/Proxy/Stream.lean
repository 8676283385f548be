import OxideHttp.Lib.Access
import OxideHttp.Lib.Arrivals
import OxideHttp.Proxy

/-!
# The bytes behind the PROXY header (`src/proxy_protocol.rs`)

`read_header` once more, now on a socket that may go on for ever, cut into pieces in any
way, with reads that may fail, and with every access of the source checked.  The loops end
because every read adds to a buffer of bounded length.

Results.
* `readHeader_safe`: no access is outside, and an accepted stream is one header, what is
  left in the buffer, and what the socket still has.
* `strip_conserves`: the same through reads of the caller, with buffers of any size.
* `readHeader_ofPieces`: on the reads of a `Conn` it is the reader of `Proxy`.
-/

namespace OxideHttp
namespace Proxy
namespace Stream

open Access Arrivals

/-- What the reads of a socket find. -/
abbrev Socket := Source UInt8

/-- `PrefixedIo`. -/
structure PrefixedIo where
  inner : Socket
  leftover : List UInt8
  pos : Nat

def PrefixedIo.new (inner : Socket) (leftover : List UInt8) : PrefixedIo where
  inner := inner
  leftover := leftover
  pos := 0

/-- `put_slice` into a buffer that has room for `room` bytes. -/
def putSlice (room : Nat) (bytes : List UInt8) : Except Fault (List UInt8) :=
  if bytes.length ≤ room then .ok bytes else .error .outOfRange

/-- `poll_read` into a buffer that has room for `room` bytes. -/
def PrefixedIo.pollRead (io : PrefixedIo) (room : Nat) :
    Except Fault (List UInt8 × PrefixedIo) :=
  if io.pos < io.leftover.length then do
    let rest ← slice io.leftover io.pos io.leftover.length
    let n := min rest.length room
    let bytes ← slice rest 0 n
    let bytes ← putSlice room bytes
    return (bytes, { io with pos := io.pos + n })
  else do
    let (bytes, inner) ← orErr (io.inner.read room)
    return (bytes, { io with inner := inner })

/-- Reads of the caller, one after the other. -/
def PrefixedIo.readAll (io : PrefixedIo) : List Nat → Except Fault (List UInt8 × PrefixedIo)
  | [] => .ok ([], io)
  | room :: rooms => do
      let (bytes, io) ← io.pollRead room
      let (more, io) ← io.readAll rooms
      return (bytes ++ more, io)

/-- `read_at_least`. -/
def readAtLeast (s : Socket) (buf : List UInt8) (want : Nat) :
    Except Fault (List UInt8 × Socket) :=
  if buf.length < want then
    match s.read chunkSize with
    | none => .error .err
    | some (chunk, t) =>
        if chunk.length = 0 then .error .err
        else if chunkSize < chunk.length then .error .outOfRange
        else readAtLeast t (buf ++ chunk) want
  else .ok (buf, s)
termination_by want - buf.length
decreasing_by
  rw [List.length_append]
  omega

/-- The bytes that were read stand behind the ones that were there. -/
theorem readAtLeast_safe (s : Socket) (buf : List UInt8) (want : Nat) :
    Safe (readAtLeast s buf want) fun r =>
      want ≤ r.1.length ∧ ∃ more, r.1 = buf ++ more ∧ s.Gives more r.2 := by
  fun_induction readAtLeast s buf want with
  | case1 s buf hlt hread => exact rfl
  | case2 s buf hlt chunk t hread hend => exact rfl
  | case3 s buf hlt chunk t hread hend hout =>
      have hle := read_length_le hread
      omega
  | case4 s buf hlt chunk t hread hend hout ih =>
      refine ih.mono ?_
      rintro ⟨all, u⟩ ⟨hwant, more, hall, hgives⟩
      refine ⟨hwant, chunk ++ more, ?_, (Source.Gives.read hread).trans hgives⟩
      rw [hall, List.append_assoc]
  | case5 s buf hlt => exact ⟨Nat.not_lt.1 hlt, [], (List.append_nil _).symm, Source.Gives.refl s⟩

/-- The loop of `parse_v1`: where the line ends, the buffer, and the socket. -/
def readLine (s : Socket) (buf : List UInt8) : Except Fault (Nat × List UInt8 × Socket) :=
  match findCrlf buf with
  | some i => .ok (i, buf, s)
  | none =>
      if _h : maxV1 < buf.length then .error .err
      else
        match _hr : readAtLeast s buf (buf.length + 1) with
        | .error f => .error f
        | .ok (more, t) => readLine t more
termination_by maxV1 + 1 - buf.length
decreasing_by
  have hlength := readAtLeast_safe s buf (buf.length + 1)
  rw [_hr] at hlength
  have hlt : buf.length < more.length := hlength.1
  omega

/-- `parse_v1`. -/
def parseV1 (s : Socket) (buf : List UInt8) : Except Fault (PrefixedIo × ParsedAddr) := do
  let (stop, buf, s) ← readLine s buf
  let bytes ← slice buf 0 stop
  let addr ← orErr (parseLine bytes)
  let (rest, _) ← splitOff buf (stop + 2)
  return (.new s rest, addr)

/-- The segments of an IPv6 address at the start of a block. -/
def segments (addrBlock : List UInt8) : Except Fault (List Nat) :=
  (List.range 8).mapM fun i => do
    let hi ← get addrBlock (i * 2)
    let lo ← get addrBlock (i * 2 + 1)
    return fromBeBytes hi lo

/-- The address of a v2 header with this command and family. -/
def addrOf (isProxy : Bool) (family : UInt8) (addrBlock : List UInt8) :
    Except Fault ParsedAddr :=
  if !isProxy then .ok none
  else if family = 1 ∧ 12 ≤ addrBlock.length then do
    let a ← slice addrBlock 0 4
    return some (IpText.Ipv4.display (a.map UInt8.toNat))
  else if family = 2 ∧ 36 ≤ addrBlock.length then do
    let words ← segments addrBlock
    return some (IpText.Ipv6.display words)
  else .ok none

/-- `parse_v2`. -/
def parseV2 (s : Socket) (buf : List UInt8) : Except Fault (PrefixedIo × ParsedAddr) := do
  let (buf, s) ← readAtLeast s buf 16
  let verCmd ← get buf 12
  if verCmd >>> 4 ≠ 2 then .error .err
  else
    let isProxy := verCmd &&& 0x0F == 1
    let famProto ← get buf 13
    let family := famProto >>> 4
    let hi ← get buf 14
    let lo ← get buf 15
    let len := fromBeBytes hi lo
    let (buf, s) ← readAtLeast s buf (16 + len)
    let addrBlock ← slice buf 16 (16 + len)
    let addr ← addrOf isProxy family addrBlock
    let (rest, _) ← splitOff buf (16 + len)
    return (.new s rest, addr)

/-- `read_header`. -/
def readHeader (s : Socket) : Except Fault (PrefixedIo × ParsedAddr) := do
  let (buf, s) ← readAtLeast s [] 12
  let start ← slice buf 0 12
  if start = sigV2 then parseV2 s buf
  else if sigV1.isPrefixOf buf then parseV1 s buf
  else .error .err

/-! ## One header, and what is behind it -/

/-- The bytes of one header: through the first CRLF, or as many as version 2 declares. -/
inductive OneHeader : List UInt8 → Prop
  | v1 {bytes : List UInt8} {e : Nat} : sigV1 <+: bytes → findCrlf bytes = some e →
      bytes.length = e + 2 → OneHeader bytes
  | v2 {bytes : List UInt8} : sigV2 <+: bytes → bytes.length = 16 + lenV2 bytes →
      OneHeader bytes

/-- The socket gave these bytes and those that are left over, and goes on as the inner one. -/
def Given (s : Socket) (bytes : List UInt8) (io : PrefixedIo) : Prop :=
  io.pos ≤ io.leftover.length ∧ s.Gives (bytes ++ io.leftover.drop io.pos) io.inner

theorem readLine_safe (s : Socket) (buf : List UInt8) :
    Safe (readLine s buf) fun r =>
      findCrlf r.2.1 = some r.1 ∧ ∃ more, r.2.1 = buf ++ more ∧ s.Gives more r.2.2 := by
  fun_induction readLine s buf with
  | case1 s buf i hcrlf => exact ⟨hcrlf, [], (List.append_nil _).symm, Source.Gives.refl s⟩
  | case2 s buf hcrlf hlong => exact rfl
  | case3 s buf hcrlf hlong f hread =>
      have hsafe := readAtLeast_safe s buf (buf.length + 1)
      rw [hread] at hsafe
      exact hsafe
  | case4 s buf hcrlf hlong all t hread ih =>
      have hsafe := readAtLeast_safe s buf (buf.length + 1)
      rw [hread] at hsafe
      obtain ⟨-, front, hall, hfront⟩ := hsafe
      refine ih.mono ?_
      rintro ⟨stop, whole, u⟩ ⟨hstop, more, hwhole, hmore⟩
      dsimp only at hall hwhole hmore
      refine ⟨hstop, front ++ more, ?_, hfront.trans hmore⟩
      rw [hwhole, hall, List.append_assoc]

/-- There is no CRLF in the first bytes of version 1. -/
theorem behind_sigV1 {s : List UInt8} {e : Nat} (hs : sigV1 <+: s)
    (hcrlf : findCrlf s = some e) : sigV1.length ≤ e + 2 := by
  obtain ⟨rest, rfl⟩ := hs
  have hnone := findCrlf_of_append hcrlf
  by_contra hshort
  rw [if_pos (by omega)] at hnone
  cases hnone

theorem oneHeader_v1 {s : List UInt8} {e : Nat} (hs : sigV1 <+: s)
    (hcrlf : findCrlf s = some e) : OneHeader (s.take (e + 2)) := by
  have hle := findCrlf_le hcrlf
  have hlength : (s.take (e + 2)).length = e + 2 := by
    rw [List.length_take, Nat.min_eq_left hle]
  have hline : findCrlf (s.take (e + 2)) = some e := by
    have hfront := hcrlf
    rw [← List.take_append_drop (e + 2) s] at hfront
    rw [findCrlf_of_append hfront, if_pos (Nat.le_of_eq hlength.symm)]
  exact .v1 (List.prefix_take_iff.2 ⟨hs, behind_sigV1 hs hcrlf⟩) hline hlength

theorem oneHeader_v2 {s : List UInt8} (hs : sigV2 <+: s) (hall : 16 + lenV2 s ≤ s.length) :
    OneHeader (s.take (16 + lenV2 s)) := by
  have hlength : (s.take (16 + lenV2 s)).length = 16 + lenV2 s := by
    rw [List.length_take, Nat.min_eq_left hall]
  have hfields : lenV2 (s.take (16 + lenV2 s)) = lenV2 s := by
    rw [← lenV2_append (Nat.le_of_add_right_le (Nat.le_of_eq hlength.symm))
      (s.drop (16 + lenV2 s)), List.take_append_drop]
  have hsig : sigV2.length ≤ 16 + lenV2 s := Nat.le_add_right_of_le (by decide)
  exact .v2 (List.prefix_take_iff.2 ⟨hs, hsig⟩) (by rw [hlength, hfields])

/-- What `parse_v1` takes off is a line that starts as the buffer does. -/
theorem parseV1_safe (s : Socket) {buf : List UInt8} (hbuf : sigV1 <+: buf) :
    Safe (parseV1 s buf) fun r => r.1.pos = 0 ∧ ∃ header more,
      OneHeader header ∧ header ++ r.1.leftover = buf ++ more ∧ s.Gives more r.1.inner := by
  refine (readLine_safe s buf).bind ?_
  rintro ⟨stop, line, t⟩ ⟨hcrlf, more, rfl, hgives⟩
  dsimp only at hcrlf
  have hle := findCrlf_le hcrlf
  refine (safe_slice (Nat.zero_le _) (by omega)).bind ?_
  rintro bytes -
  refine (safe_orErr _).bind ?_
  rintro addr -
  refine (safe_splitOff hle).bind ?_
  rintro ⟨rest, front⟩ hsplit
  obtain ⟨rfl, rfl⟩ := Prod.mk.inj hsplit
  refine ⟨rfl, (buf ++ more).take (stop + 2), more, ?_, List.take_append_drop .., hgives⟩
  exact oneHeader_v1 (hbuf.trans (List.prefix_append buf more)) hcrlf

theorem segments_eq {addrBlock : List UInt8} (h : 36 ≤ addrBlock.length) :
    segments addrBlock = .ok (Proxy.segments addrBlock) := by
  refine mapM_eq fun i hi => ?_
  have hlt : i < 8 := List.mem_range.1 hi
  rw [get_eq (by omega) 0, get_eq (by omega) 0]
  rfl

/-- The length that is checked is long enough for the accesses. -/
theorem addrOf_eq (isProxy : Bool) (family : UInt8) (addrBlock : List UInt8) :
    addrOf isProxy family addrBlock = .ok (Proxy.addrOf isProxy family addrBlock) := by
  unfold addrOf Proxy.addrOf
  split
  case isTrue => rfl
  case isFalse =>
    split
    case isTrue hinet =>
      rw [slice_eq (Nat.zero_le 4) (Nat.le_trans (by decide) hinet.2)]
      rfl
    case isFalse =>
      split
      case isTrue hinet6 =>
        rw [segments_eq hinet6.2]
        rfl
      case isFalse => rfl

/-- What `parse_v2` takes off has the length that its fields declare. -/
theorem parseV2_safe (s : Socket) {buf : List UInt8} (hbuf : sigV2 <+: buf) :
    Safe (parseV2 s buf) fun r => r.1.pos = 0 ∧ ∃ header more,
      OneHeader header ∧ header ++ r.1.leftover = buf ++ more ∧ s.Gives more r.1.inner := by
  refine (readAtLeast_safe s buf 16).bind ?_
  rintro ⟨head, t⟩ ⟨hhead, front, rfl, hfront⟩
  dsimp only at hhead
  refine (safe_get (by omega) 0).bind ?_
  rintro verCmd rfl
  split
  case isTrue => exact rfl
  case isFalse =>
    refine (safe_get (by omega) 0).bind ?_
    rintro famProto -
    refine (safe_get (by omega) 0).bind ?_
    rintro hi hhi
    refine (safe_get (by omega) 0).bind ?_
    rintro lo hlo
    have hlen : fromBeBytes hi lo = lenV2 (buf ++ front) := by rw [hhi, hlo, lenV2]
    rw [hlen]
    refine (readAtLeast_safe t _ _).bind ?_
    rintro ⟨all, u⟩ ⟨hall, back, rfl, hback⟩
    dsimp only at hall
    refine (safe_slice (by omega) hall).bind ?_
    rintro addrBlock -
    rw [addrOf_eq]
    refine (safe_splitOff hall).bind ?_
    rintro ⟨rest, header⟩ hsplit
    obtain ⟨rfl, rfl⟩ := Prod.mk.inj hsplit
    rw [← lenV2_append hhead back] at hall ⊢
    have hsig := (hbuf.trans (List.prefix_append buf front)).trans
      (List.prefix_append (buf ++ front) back)
    refine ⟨rfl, _, front ++ back, oneHeader_v2 hsig hall, ?_, hfront.trans hback⟩
    rw [← List.append_assoc]
    exact List.take_append_drop ..

/-- What `read_header` takes off the stream is one header. -/
theorem readHeader_safe (s : Socket) :
    Safe (readHeader s) fun r => ∃ header, OneHeader header ∧ Given s header r.1 := by
  refine (readAtLeast_safe s [] 12).bind ?_
  rintro ⟨buf, t⟩ ⟨htwelve, more, rfl, hgives⟩
  refine (safe_slice (Nat.zero_le _) htwelve).bind ?_
  rintro start rfl
  split
  case isTrue hsig =>
    have hbuf : sigV2 <+: buf := by
      rw [← hsig]
      exact List.take_prefix 12 buf
    refine (parseV2_safe t hbuf).mono ?_
    rintro ⟨io, addr⟩ ⟨hpos, header, back, hheader, hall, hback⟩
    refine ⟨header, hheader, hpos ▸ Nat.zero_le _, ?_⟩
    rw [hpos, List.drop_zero, hall]
    exact hgives.trans hback
  case isFalse =>
    split
    case isTrue hsig =>
      refine (parseV1_safe t (List.isPrefixOf_iff_prefix.1 hsig)).mono ?_
      rintro ⟨io, addr⟩ ⟨hpos, header, back, hheader, hall, hback⟩
      refine ⟨header, hheader, hpos ▸ Nat.zero_le _, ?_⟩
      rw [hpos, List.drop_zero, hall]
      exact hgives.trans hback
    case isFalse => exact rfl

/-! ## Reading on -/

/-- What is left over is taken first, as much of it as there is room for. -/
theorem pollRead_leftover {io : PrefixedIo} (h : io.pos < io.leftover.length) (room : Nat) :
    io.pollRead room = .ok ((io.leftover.drop io.pos).take room,
      { io with pos := io.pos + min (io.leftover.length - io.pos) room }) := by
  have hrest : slice io.leftover io.pos io.leftover.length =
      .ok (io.leftover.drop io.pos) := by
    rw [slice_eq (Nat.le_of_lt h) (Nat.le_refl _), List.take_of_length_le (by simp)]
  have htake : (io.leftover.drop io.pos).take (min (io.leftover.drop io.pos).length room) =
      (io.leftover.drop io.pos).take room := by
    rw [List.take_eq_take_iff]
    omega
  have hbytes : slice (io.leftover.drop io.pos) 0
      (min (io.leftover.drop io.pos).length room) =
        .ok ((io.leftover.drop io.pos).take room) := by
    rw [slice_eq (Nat.zero_le _) (Nat.min_le_left _ _), List.drop_zero, Nat.sub_zero, htake]
  have hput : putSlice room ((io.leftover.drop io.pos).take room) =
      .ok ((io.leftover.drop io.pos).take room) := if_pos (List.length_take_le ..)
  rw [PrefixedIo.pollRead, if_pos h]
  simp only [hrest, hbytes, hput, bind, Except.bind]
  rw [List.length_drop]
  rfl

/-- A read of the caller takes what comes next. -/
theorem pollRead_safe {s : Socket} {bytes : List UInt8} {io : PrefixedIo}
    (h : Given s bytes io) (room : Nat) :
    Safe (io.pollRead room) fun r => Given s (bytes ++ r.1) r.2 := by
  obtain ⟨hpos, hgives⟩ := h
  by_cases hlt : io.pos < io.leftover.length
  · rw [pollRead_leftover hlt]
    refine ⟨by dsimp only; omega, ?_⟩
    have htake : (io.leftover.drop io.pos).take room =
        (io.leftover.drop io.pos).take (min (io.leftover.length - io.pos) room) := by
      rw [List.take_eq_take_iff, List.length_drop]
      omega
    dsimp only
    rw [htake, ← List.drop_drop, List.append_assoc, List.take_append_drop]
    exact hgives
  · rw [PrefixedIo.pollRead, if_neg hlt]
    refine (safe_orErr _).bind ?_
    rintro ⟨chunk, inner⟩ hread
    have hdrop : io.leftover.drop io.pos = [] := List.drop_eq_nil_of_le (Nat.not_lt.1 hlt)
    refine ⟨hpos, ?_⟩
    rw [hdrop, List.append_nil] at hgives ⊢
    exact hgives.trans (Source.Gives.read hread)

theorem readAll_safe {s : Socket} {bytes : List UInt8} {io : PrefixedIo}
    (h : Given s bytes io) (rooms : List Nat) :
    Safe (io.readAll rooms) fun r => Given s (bytes ++ r.1) r.2 := by
  induction rooms generalizing bytes io with
  | nil =>
      rw [PrefixedIo.readAll, safe_ok, List.append_nil]
      exact h
  | cons room rooms ih =>
      refine (pollRead_safe h room).bind ?_
      rintro ⟨chunk, io'⟩ hchunk
      refine (ih hchunk).bind ?_
      rintro ⟨more, io''⟩ hmore
      rw [safe_pure, ← List.append_assoc]
      exact hmore

/-- A read with room for a byte gives none only if the socket gives none. -/
theorem pollRead_nil {io io' : PrefixedIo} {room : Nat} (hroom : 0 < room)
    (h : io.pollRead room = .ok ([], io')) :
    io.leftover.length ≤ io.pos ∧ io.inner.read room = some ([], io'.inner) := by
  by_cases hlt : io.pos < io.leftover.length
  · rw [pollRead_leftover hlt] at h
    have hnil := congrArg (fun r => r.1.length) (Except.ok.inj h)
    simp only [List.length_take, List.length_drop, List.length_nil] at hnil
    omega
  · refine ⟨Nat.not_lt.1 hlt, ?_⟩
    rw [PrefixedIo.pollRead, if_neg hlt] at h
    cases hread : io.inner.read room with
    | none =>
        rw [hread] at h
        cases h
    | some r =>
        obtain ⟨bytes, inner⟩ := r
        rw [hread] at h
        cases h
        rfl

/-- The stream is one header and then what the caller reads: whatever buffers it reads with,
the socket gave the header, the bytes of the reads and the rest of what is left over, in this
order; and a read with room gives no bytes only when nothing is left over and the socket has
none. -/
theorem strip_conserves (s : Socket) :
    Safe (readHeader s) fun r => ∃ header, OneHeader header ∧ ∀ rooms : List Nat,
      Safe (r.1.readAll rooms) fun read => Given s (header ++ read.1) read.2 ∧
        ∀ (room : Nat) (io : PrefixedIo), read.2.pollRead (room + 1) = .ok ([], io) →
          read.2.leftover.length ≤ read.2.pos ∧
            read.2.inner.read (room + 1) = some ([], io.inner) := by
  refine (readHeader_safe s).mono ?_
  rintro ⟨io, addr⟩ ⟨header, hheader, hgiven⟩
  refine ⟨header, hheader, fun rooms => ?_⟩
  refine (readAll_safe hgiven rooms).mono ?_
  rintro ⟨bytes, io'⟩ hread
  exact ⟨hread, fun room io'' hnone => pollRead_nil (Nat.succ_pos room) hnone⟩

/-! ## The reads of a connection -/

theorem readAtLeast_ofPieces {want : Nat} {buf : List UInt8} {reads : List (List UInt8)}
    (hreads : ∀ chunk ∈ reads, 0 < chunk.length ∧ chunk.length ≤ chunkSize) :
    readAtLeast (.ofPieces reads) buf want = (orErr (Proxy.readAtLeast want buf reads)).map
      fun r => (r.1, .ofPieces r.2) := by
  induction reads generalizing buf with
  | nil =>
      rw [readAtLeast, read_ofPieces_nil, Proxy.readAtLeast]
      by_cases hlt : buf.length < want
      · rw [if_pos hlt, if_pos hlt]
        rfl
      · rw [if_neg hlt, if_neg hlt]
        rfl
  | cons chunk reads ih =>
      obtain ⟨hpos, hle⟩ := hreads chunk (List.mem_cons_self ..)
      rw [readAtLeast, read_ofPieces_cons hle, Proxy.readAtLeast]
      by_cases hlt : buf.length < want
      · rw [if_pos hlt, if_pos hlt]
        simp only [if_neg (Nat.ne_of_gt hpos), if_neg (Nat.not_lt.2 hle)]
        exact ih fun chunk' hchunk' => hreads chunk' (List.mem_cons_of_mem chunk hchunk')
      · rw [if_neg hlt, if_neg hlt]
        rfl

theorem readAtLeast_size {want : Nat} {buf : List UInt8} {reads : List (List UInt8)}
    {r : List UInt8 × List (List UInt8)} (h : Proxy.readAtLeast want buf reads = some r)
    (hreads : ∀ chunk ∈ reads, 0 < chunk.length ∧ chunk.length ≤ chunkSize) :
    ∀ chunk ∈ r.2, 0 < chunk.length ∧ chunk.length ≤ chunkSize := by
  obtain ⟨-, taken, htaken, -⟩ := readAtLeast_some h
  exact fun chunk hchunk => hreads chunk (htaken ▸ List.mem_append_right taken hchunk)

theorem readLine_ofPieces {buf : List UInt8} {reads : List (List UInt8)}
    (hreads : ∀ chunk ∈ reads, 0 < chunk.length ∧ chunk.length ≤ chunkSize) :
    readLine (.ofPieces reads) buf = (orErr (Proxy.readLine buf reads)).map
      fun r => (r.1, r.2.1, .ofPieces r.2.2) := by
  fun_induction Proxy.readLine buf reads with
  | case1 buf reads i hcrlf =>
      rw [readLine, hcrlf]
      rfl
  | case2 buf reads hcrlf hlong =>
      rw [readLine, hcrlf]
      simp only [dif_pos hlong]
      rfl
  | case3 buf reads hcrlf hlong hread =>
      rw [readLine, hcrlf]
      simp only [dif_neg hlong]
      have hsame := @readAtLeast_ofPieces (buf.length + 1) buf reads hreads
      rw [hread] at hsame
      split
      case h_1 f hf =>
        rw [hsame] at hf
        cases hf
        rfl
      case h_2 all t ht =>
        rw [hsame] at ht
        cases ht
  | case4 buf reads hcrlf hlong r hread ih =>
      rw [readLine, hcrlf]
      simp only [dif_neg hlong]
      have hsame := @readAtLeast_ofPieces (buf.length + 1) buf reads hreads
      rw [hread] at hsame
      split
      case h_1 f hf =>
        rw [hsame] at hf
        cases hf
      case h_2 all t ht =>
        rw [hsame] at ht
        cases ht
        exact ih (readAtLeast_size hread hreads)

/-- A wrapped connection as a wrapped socket. -/
def PrefixedIo.ofPieces (io : Proxy.PrefixedIo) : PrefixedIo where
  inner := .ofPieces io.inner
  leftover := io.leftover
  pos := io.pos

theorem parseV1_ofPieces {buf : List UInt8} {reads : List (List UInt8)}
    (hreads : ∀ chunk ∈ reads, 0 < chunk.length ∧ chunk.length ≤ chunkSize) :
    parseV1 (.ofPieces reads) buf = (orErr (Proxy.parseV1 reads buf)).map
      fun r => (.ofPieces r.1, r.2) := by
  have hsafe := readLine_safe (.ofPieces reads) buf
  rw [parseV1, Proxy.parseV1]
  rw [readLine_ofPieces hreads] at hsafe ⊢
  cases hline : Proxy.readLine buf reads with
  | none => rfl
  | some r =>
      obtain ⟨stop, all, rest⟩ := r
      rw [hline] at hsafe
      have hle : stop + 2 ≤ all.length := findCrlf_le hsafe.1
      simp only [orErr, Except.map, bind, Except.bind, Option.bind,
        slice_eq (Nat.zero_le stop) (Nat.le_of_add_right_le hle), splitOff_eq hle,
        List.drop_zero, Nat.sub_zero]
      cases parseLine (all.take stop) <;> rfl

theorem parseV2_ofPieces {buf : List UInt8} {reads : List (List UInt8)}
    (hreads : ∀ chunk ∈ reads, 0 < chunk.length ∧ chunk.length ≤ chunkSize) :
    parseV2 (.ofPieces reads) buf = (orErr (Proxy.parseV2 reads buf)).map
      fun r => (.ofPieces r.1, r.2) := by
  rw [parseV2, Proxy.parseV2, readAtLeast_ofPieces hreads]
  cases hhead : Proxy.readAtLeast 16 buf reads with
  | none => rfl
  | some r =>
      obtain ⟨head, rest⟩ := r
      have hlength : 16 ≤ head.length := (readAtLeast_some hhead).1
      have hrest := readAtLeast_size hhead hreads
      have hget : ∀ i < 16, get head i = .ok (head.getD i 0) := fun i hi =>
        get_eq (Nat.lt_of_lt_of_le hi hlength) 0
      simp only [orErr, Except.map, bind, Except.bind, Option.bind, hget 12 (by omega),
        hget 13 (by omega), hget 14 (by omega), hget 15 (by omega)]
      by_cases hver : head.getD 12 0 >>> 4 = 2
      · rw [if_neg (not_not.2 hver), if_neg (not_not.2 hver), readAtLeast_ofPieces hrest]
        cases hblock : Proxy.readAtLeast
            (16 + fromBeBytes (head.getD 14 0) (head.getD 15 0)) head rest with
        | none => rfl
        | some r =>
            obtain ⟨all, rest'⟩ := r
            have hall := (readAtLeast_some hblock).1
            simp only [orErr, Except.map, slice_eq (Nat.le_add_right 16 _) hall,
              splitOff_eq hall, addrOf_eq, Nat.add_sub_cancel_left]
            rfl
      · rw [if_pos hver, if_pos hver]

/-- On the reads of a connection it is the reader of `Proxy`. -/
theorem readHeader_ofPieces (c : Conn) :
    readHeader (.ofPieces c.reads) = (orErr (Proxy.readHeader c.reads)).map
      fun r => (.ofPieces r.1, r.2) := by
  rw [readHeader, Proxy.readHeader, readAtLeast_ofPieces c.size]
  cases htwelve : Proxy.readAtLeast 12 [] c.reads with
  | none => rfl
  | some r =>
      obtain ⟨buf, rest⟩ := r
      have hlength : 12 ≤ buf.length := (readAtLeast_some htwelve).1
      have hrest := readAtLeast_size htwelve c.size
      simp only [orErr, Except.map, bind, Except.bind, Option.bind,
        slice_eq (Nat.zero_le 12) hlength, List.drop_zero, Nat.sub_zero]
      by_cases hv2 : buf.take 12 = sigV2
      · rw [if_pos hv2, if_pos hv2]
        exact parseV2_ofPieces hrest
      rw [if_neg hv2, if_neg hv2]
      by_cases hv1 : sigV1.isPrefixOf buf
      · rw [if_pos hv1, if_pos hv1]
        exact parseV1_ofPieces hrest
      · rw [if_neg hv1, if_neg hv1]

end Stream
end Proxy
end OxideHttp
