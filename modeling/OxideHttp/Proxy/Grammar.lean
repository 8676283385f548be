import OxideHttp.Proxy

/-!
# The grammar of the PROXY header (`src/proxy_protocol.rs`)

`Header` is the grammar of both versions with the source address that a header carries.
`read_header` accepts every header, and more: it looks at the source word of a v1 line and
at no other, at its length only when it waits for more bytes, and at the address block of
version 2 only when it is long enough.

Results.
* `outcome_of_header`: every header is accepted.
* `exact_iff`: what is accepted is a header with that address, but for five kinds of
  input.
-/

namespace OxideHttp
namespace Proxy

open IpText Pieces

/-! ## The grammar -/

/-- A port. -/
def Port (text : List Char) : Prop := ∃ n, Decimal text n ∧ n < 65536

/-- Two addresses of a family and two ports. -/
inductive Endpoints (Denotes : List Char → List Nat → Prop) : List (List Char) → Prop
  | intro {src dst sport dport : List Char} {a b : List Nat} :
      Denotes src a → Denotes dst b → Port sport → Port dport →
      Endpoints Denotes [src, dst, sport, dport]

def Ascii (text : List Char) : Prop := ∀ ch ∈ text, ch.toNat < 128

/-- A v1 line and its source address. -/
inductive V1Line : List Char → ParsedAddr → Prop
  | unknown : V1Line "PROXY UNKNOWN".toList none
  | unknownText {text : List Char} : Ascii text →
      V1Line ("PROXY UNKNOWN".toList ++ ' ' :: text) none
  | tcp4 {line src : List Char} {fields : List (List Char)} :
      line.splitOn ' ' = "PROXY".toList :: "TCP4".toList :: src :: fields →
      Endpoints Ipv4.Denotes (src :: fields) → V1Line line (some src)
  | tcp6 {line src : List Char} {fields : List (List Char)} :
      line.splitOn ' ' = "PROXY".toList :: "TCP6".toList :: src :: fields →
      Endpoints Ipv6.Denotes (src :: fields) → V1Line line (some src)

/-- The source address in an address block of a family. -/
inductive Block : UInt8 → List UInt8 → ParsedAddr → Prop
  | inet {block : List UInt8} {text : List Char} : 12 ≤ block.length →
      Ipv4.Denotes text ((block.take 4).map UInt8.toNat) → Block 1 block (some text)
  | inet6 {block : List UInt8} {text : List Char} : 36 ≤ block.length →
      Ipv6.Denotes text (segments block) → Block 2 block (some text)
  | other {family : UInt8} {block : List UInt8} : family ≠ 1 → family ≠ 2 →
      Block family block none

/-- The bytes of a v2 header. -/
def v2Bytes (verCmd famProto hi lo : UInt8) (block : List UInt8) : List UInt8 :=
  sigV2 ++ [verCmd, famProto, hi, lo] ++ block

/-- A stream that starts with a header, the source address, and the bytes behind. -/
inductive Header : List UInt8 → ParsedAddr → List UInt8 → Prop
  | v1 {line : List Char} {addr : ParsedAddr} {rest : List UInt8} : V1Line line addr →
      ¬ [0x0D, 0x0A] <:+: utf8 line → (utf8 line).length + 2 ≤ 107 →
      Header (utf8 line ++ [0x0D, 0x0A] ++ rest) addr rest
  | v2Local {famProto hi lo : UInt8} {block rest : List UInt8} :
      block.length = fromBeBytes hi lo →
      Header (v2Bytes 0x20 famProto hi lo block ++ rest) none rest
  | v2Proxy {famProto hi lo : UInt8} {block rest : List UInt8} {addr : ParsedAddr} :
      block.length = fromBeBytes hi lo → Block (famProto >>> 4) block addr →
      Header (v2Bytes 0x21 famProto hi lo block ++ rest) addr rest

/-- `read_header` accepts the headers and nothing else, with their source address. -/
def Exact (c : Conn) : Prop :=
  (c.outcome.isSome ↔ ∃ addr rest, Header c.stream addr rest) ∧
    ∀ addr rest, c.outcome = some (addr, rest) → Header c.stream addr rest

/-! ## What is accepted otherwise -/

/-- A first line of version 1 that arrives so that it is accepted. -/
structure Accepted (c : Conn) (line : List Char) : Prop where
  first : FirstLine c.stream line
  tagged : Tagged line
  clear : c.Clear ((utf8 line).length + 2)

/-- The five kinds of input that are accepted without being a header. -/
inductive Deviant (c : Conn) : Prop
  /-- a v1 line that is too long -/
  | long (line : List Char) : Accepted c line → 107 < (utf8 line).length + 2 → Deviant c
  /-- a v1 line of an unknown protocol with a character that is not ASCII -/
  | text (line : List Char) : Accepted c line →
      (line.splitOn ' ')[1]? = some "UNKNOWN".toList → ¬ Ascii line → Deviant c
  /-- a v1 line of TCP whose other words are not two addresses and two ports -/
  | words (line : List Char) : Accepted c line →
      ((line.splitOn ' ')[1]? = some "TCP4".toList ∧
          ¬ Endpoints Ipv4.Denotes ((line.splitOn ' ').drop 2) ∨
        (line.splitOn ' ')[1]? = some "TCP6".toList ∧
          ¬ Endpoints Ipv6.Denotes ((line.splitOn ' ').drop 2)) → Deviant c
  /-- a v2 header with another command -/
  | command (verCmd famProto hi lo : UInt8) (block : List UInt8) :
      v2Bytes verCmd famProto hi lo block <+: c.stream → block.length = fromBeBytes hi lo →
      verCmd >>> 4 = 2 → verCmd ≠ 0x20 → verCmd ≠ 0x21 → Deviant c
  /-- a v2 header whose address block is too short for its family -/
  | block (famProto hi lo : UInt8) (block : List UInt8) :
      v2Bytes 0x21 famProto hi lo block <+: c.stream → block.length = fromBeBytes hi lo →
      (famProto >>> 4 = 1 ∧ block.length < 12 ∨ famProto >>> 4 = 2 ∧ block.length < 36) →
      Deviant c

/-! ## Version 1 -/

theorem utf8_inj {s t : List Char} (h : utf8 s = utf8 t) : s = t := by
  have hs := fromUtf8_utf8 s
  rw [h, fromUtf8_utf8] at hs
  exact (Option.some.inj hs).symm

theorem FirstLine.unique {s : List UInt8} {line line' : List Char} (h : FirstLine s line)
    (h' : FirstLine s line') : line = line' := by
  have hlength := Option.some.inj (h.crlf.symm.trans h'.crlf)
  refine utf8_inj ?_
  rw [List.prefix_iff_eq_take.1 h.text, List.prefix_iff_eq_take.1 h'.text, hlength]

theorem findCrlf_isSome_append (front rest : List UInt8) :
    (findCrlf (front ++ 0x0D :: 0x0A :: rest)).isSome := by
  induction front with
  | nil => rfl
  | cons a front ih =>
      rw [List.cons_append, findCrlf_cons]
      split
      · rfl
      · rwa [Option.isSome_map]

/-- The first CRLF is at the end of a line that holds none. -/
theorem findCrlf_line {bytes : List UInt8} (h : ¬ [0x0D, 0x0A] <:+: bytes)
    (rest : List UInt8) :
    findCrlf (bytes ++ 0x0D :: 0x0A :: rest) = some bytes.length := by
  induction bytes with
  | nil => rfl
  | cons a bytes ih =>
      rw [List.cons_append, findCrlf_cons, if_neg, ih fun hin => h (List.infix_cons hin)]
      · rfl
      · rintro ⟨rfl, hhead⟩
        cases bytes with
        | nil => simp at hhead
        | cons b bytes =>
            obtain rfl : b = 0x0A := by simpa using hhead
            exact h ⟨[], bytes, rfl⟩

theorem FirstLine.not_infix {s : List UInt8} {line : List Char} (h : FirstLine s line) :
    ¬ [0x0D, 0x0A] <:+: utf8 line := by
  rintro ⟨front, back, hline⟩
  obtain ⟨more, rfl⟩ := h.text
  have hnone := findCrlf_of_append h.crlf
  rw [if_neg (by omega), ← hline, List.append_assoc] at hnone
  have hsome := findCrlf_isSome_append front back
  rw [List.cons_append, List.singleton_append] at hnone
  rw [hnone] at hsome
  cases hsome

theorem FirstLine.eq {s : List UInt8} {line : List Char} (h : FirstLine s line) :
    s = utf8 line ++ [0x0D, 0x0A] ++ s.drop ((utf8 line).length + 2) := by
  have hsplit := findCrlf_split h.crlf
  rw [← List.prefix_iff_eq_take.1 h.text] at hsplit
  rw [List.append_assoc]
  exact hsplit

theorem firstLine_iff {s : List UInt8} {line : List Char} :
    FirstLine s line ↔ ∃ rest, s = utf8 line ++ [0x0D, 0x0A] ++ rest ∧
      ¬ [0x0D, 0x0A] <:+: utf8 line := by
  constructor
  · exact fun h => ⟨_, h.eq, h.not_infix⟩
  · rintro ⟨rest, rfl, hline⟩
    rw [List.append_assoc]
    exact ⟨findCrlf_line hline rest, List.prefix_append _ _⟩

/-- A protocol has at least four letters, so twelve bytes are there with the CRLF. -/
theorem Tagged.length {line : List Char} (h : Tagged line) : 10 ≤ (utf8 line).length := by
  obtain ⟨proto, words, hwords, hproto⟩ := h.words
  have hlength : 10 ≤ (utf8 ("PROXY ".toList ++ proto)).length := by
    rcases hproto with rfl | rfl | rfl <;> decide
  rcases starts_of_words hwords hproto with rfl | ⟨rest, rfl⟩
  · exact hlength
  · rw [utf8_append, utf8_append, List.length_append, List.length_append]
    omega

theorem Accepted.outcome {c : Conn} {line : List Char} (h : Accepted c line) :
    c.outcome = some (sourceWord line, c.stream.drop ((utf8 line).length + 2)) := by
  have hv1 := h.tagged.sigV1.trans h.first.text
  have hle := findCrlf_le h.first.crlf
  have hlength := h.tagged.length
  rw [outcome_v1_of_clear hv1 (by omega) h.first.crlf h.clear, headerV1,
    ← List.prefix_iff_eq_take.1 h.first.text, parseLine_utf8_of_tagged h.tagged]
  rfl

theorem accepted_of_outcome {c : Conn} {r : ParsedAddr × List UInt8} (hv1 : sigV1 <+: c.stream)
    (h : c.outcome = some r) : ∃ line, Accepted c line := by
  cases hcrlf : findCrlf c.stream with
  | none =>
      rw [outcome_v1_of_no_crlf hv1 hcrlf] at h
      cases h
  | some e =>
      cases hline : parseLine (c.stream.take e) with
      | none =>
          rw [outcome_v1_of_parseLine hv1 hcrlf hline] at h
          cases h
      | some addr =>
          obtain ⟨line, hbytes, htagged, -⟩ := parseLine_eq_some.1 hline
          obtain ⟨hfirst, hlength⟩ := firstLine_of_take hcrlf hbytes
          refine ⟨line, hfirst, htagged, ?_⟩
          by_contra hclear
          rw [hlength] at hclear
          rw [outcome_v1_of_not_clear hv1 hcrlf hclear] at h
          cases h

theorem splitOn_unknownText (text : List Char) :
    ("PROXY UNKNOWN".toList ++ ' ' :: text).splitOn ' ' =
      ["PROXY".toList, "UNKNOWN".toList] ++ text.splitOn ' ' := by
  rw [List.splitOn_append_cons_self]
  rfl

/-- A line of the grammar names its protocol, and the source word is its address. -/
theorem V1Line.tagged {line : List Char} {addr : ParsedAddr} (h : V1Line line addr) :
    Tagged line ∧ addr = sourceWord line := by
  cases h with
  | unknown => exact ⟨⟨by decide, by decide⟩, by decide⟩
  | @unknownText text _ =>
      have hwords := splitOn_unknownText text
      refine ⟨⟨by rw [hwords]; rfl, by rw [hwords]; simp⟩, ?_⟩
      rw [sourceWord, hwords]
      rfl
  | tcp4 hwords _ =>
      refine ⟨⟨by rw [hwords]; rfl, by rw [hwords]; simp⟩, ?_⟩
      rw [sourceWord, hwords]
      rfl
  | tcp6 hwords _ =>
      refine ⟨⟨by rw [hwords]; rfl, by rw [hwords]; simp⟩, ?_⟩
      rw [sourceWord, hwords]
      rfl

theorem ascii_of_all {text : List Char}
    (h : (text.all fun ch => decide (ch.toNat < 128)) = true) : Ascii text :=
  fun ch hch => of_decide_eq_true (List.all_eq_true.1 h ch hch)

theorem V1Line.ascii {line : List Char} {addr : ParsedAddr} (h : V1Line line addr)
    (hproto : (line.splitOn ' ')[1]? = some "UNKNOWN".toList) : Ascii line := by
  cases h with
  | unknown => exact ascii_of_all rfl
  | unknownText htext =>
      intro ch hch
      rcases List.mem_append.1 hch with hch | hch
      · have hall : Ascii "PROXY UNKNOWN".toList := ascii_of_all rfl
        exact hall ch hch
      · rcases List.mem_cons.1 hch with rfl | hch
        · decide
        · exact htext ch hch
  | tcp4 hwords _ =>
      rw [hwords] at hproto
      exact absurd (Option.some.inj hproto) (by decide)
  | tcp6 hwords _ =>
      rw [hwords] at hproto
      exact absurd (Option.some.inj hproto) (by decide)

theorem V1Line.endpoints {line : List Char} {addr : ParsedAddr} (h : V1Line line addr) :
    ((line.splitOn ' ')[1]? = some "TCP4".toList →
        Endpoints Ipv4.Denotes ((line.splitOn ' ').drop 2)) ∧
      ((line.splitOn ' ')[1]? = some "TCP6".toList →
        Endpoints Ipv6.Denotes ((line.splitOn ' ').drop 2)) := by
  cases h with
  | unknown =>
      exact ⟨fun hproto => absurd hproto (by decide), fun hproto => absurd hproto (by decide)⟩
  | @unknownText text _ =>
      rw [splitOn_unknownText]
      exact ⟨fun hproto => absurd (Option.some.inj hproto) (by decide),
        fun hproto => absurd (Option.some.inj hproto) (by decide)⟩
  | tcp4 hwords hends =>
      rw [hwords]
      exact ⟨fun _ => hends, fun hproto => absurd (Option.some.inj hproto) (by decide)⟩
  | tcp6 hwords hends =>
      rw [hwords]
      exact ⟨fun hproto => absurd (Option.some.inj hproto) (by decide), fun _ => hends⟩

/-- The line is one of the grammar, unless it is of one of the kinds. -/
theorem Accepted.v1Line {c : Conn} {line : List Char} (h : Accepted c line)
    (hdev : ¬ Deviant c) : V1Line line (sourceWord line) := by
  obtain ⟨proto, words, hwords, hproto⟩ := h.tagged.words
  have hline := starts_of_words hwords hproto
  rcases hproto with rfl | rfl | rfl
  · have hends : Endpoints Ipv4.Denotes words := by
      by_contra hends
      refine hdev (.words line h (Or.inl ?_))
      rw [hwords]
      exact ⟨rfl, hends⟩
    cases hends with
    | @intro src dst sport dport a b hsrc hdst hsport hdport =>
        have hsource : sourceWord line = some src := by rw [sourceWord, hwords]; rfl
        rw [hsource]
        exact .tcp4 hwords ⟨hsrc, hdst, hsport, hdport⟩
  · have hends : Endpoints Ipv6.Denotes words := by
      by_contra hends
      refine hdev (.words line h (Or.inr ?_))
      rw [hwords]
      exact ⟨rfl, hends⟩
    cases hends with
    | @intro src dst sport dport a b hsrc hdst hsport hdport =>
        have hsource : sourceWord line = some src := by rw [sourceWord, hwords]; rfl
        rw [hsource]
        exact .tcp6 hwords ⟨hsrc, hdst, hsport, hdport⟩
  · have hascii : Ascii line := by
      by_contra hascii
      exact hdev (.text line h (by rw [hwords]; rfl) hascii)
    have hsource : sourceWord line = none := by rw [sourceWord, hwords]; rfl
    rw [hsource]
    rcases hline with rfl | ⟨text, rfl⟩
    · exact .unknown
    · rw [List.append_assoc]
      exact .unknownText fun ch hch => hascii ch (List.mem_append_right _ hch)

/-! ## Version 2 -/

/-- A stream that starts with the signature and is long enough. -/
theorem exists_v2Bytes {s : List UInt8} (hv2 : sigV2 <+: s) (hlen : 16 + lenV2 s ≤ s.length) :
    ∃ verCmd famProto hi lo block rest, s = v2Bytes verCmd famProto hi lo block ++ rest ∧
      block.length = fromBeBytes hi lo := by
  obtain ⟨tail, rfl⟩ := hv2
  have hsig : sigV2.length = 12 := rfl
  rw [List.length_append, hsig] at hlen
  have hfour : 4 ≤ tail.length := by omega
  rcases tail with _ | ⟨verCmd, _ | ⟨famProto, _ | ⟨hi, _ | ⟨lo, body⟩⟩⟩⟩
  · simp at hfour
  · simp at hfour
  · simp at hfour
  · simp at hfour
  · have hbody : fromBeBytes hi lo ≤ body.length := by
      change 16 + fromBeBytes hi lo ≤ 12 + (body.length + 4) at hlen
      omega
    refine ⟨verCmd, famProto, hi, lo, body.take (fromBeBytes hi lo),
      body.drop (fromBeBytes hi lo), ?_, ?_⟩
    · simp [v2Bytes]
    · rw [List.length_take]
      omega

theorem sigV2_isPrefix (verCmd famProto hi lo : UInt8) (block rest : List UInt8) :
    sigV2 <+: v2Bytes verCmd famProto hi lo block ++ rest :=
  ⟨[verCmd, famProto, hi, lo] ++ (block ++ rest), by simp [v2Bytes]⟩

/-- The bytes tell the fields and the block. -/
theorem v2Bytes_inj {verCmd famProto hi lo verCmd' famProto' hi' lo' : UInt8}
    {block block' rest rest' : List UInt8} (hblock : block.length = fromBeBytes hi lo)
    (hblock' : block'.length = fromBeBytes hi' lo')
    (h : v2Bytes verCmd famProto hi lo block ++ rest =
      v2Bytes verCmd' famProto' hi' lo' block' ++ rest') :
    verCmd = verCmd' ∧ famProto = famProto' ∧ block = block' ∧ rest = rest' := by
  simp only [v2Bytes, List.append_assoc, List.append_cancel_left_eq, List.cons_append,
    List.nil_append, List.cons.injEq] at h
  obtain ⟨rfl, rfl, rfl, rfl, hbody⟩ := h
  obtain ⟨rfl, rfl⟩ := List.append_inj hbody (hblock.trans hblock'.symm)
  exact ⟨rfl, rfl, rfl, rfl⟩

theorem headerV2_v2Bytes {verCmd famProto hi lo : UInt8} {block : List UInt8}
    (hblock : block.length = fromBeBytes hi lo) (rest : List UInt8) :
    headerV2 (v2Bytes verCmd famProto hi lo block ++ rest) =
      if verCmd >>> 4 = 2 then
        some (addrOf (verCmd &&& 0x0F == 1) (famProto >>> 4) block, rest)
      else none := by
  have hlen : lenV2 (v2Bytes verCmd famProto hi lo block ++ rest) = block.length := hblock.symm
  have hdrop : (v2Bytes verCmd famProto hi lo block ++ rest).drop 16 = block ++ rest := rfl
  have hroom : 16 + block.length ≤ (v2Bytes verCmd famProto hi lo block ++ rest).length := by
    have hsig : sigV2.length = 12 := rfl
    simp only [v2Bytes, List.length_append, List.length_cons, List.length_nil, hsig]
    omega
  rw [headerV2, hlen, ← List.drop_drop, hdrop, List.take_left' rfl, List.drop_left' rfl]
  simp only [hroom, true_and]
  rfl

theorem fromBeBytes_lt (hi lo : UInt8) : fromBeBytes hi lo < 65536 := by
  have hhi := hi.toNat_lt
  have hlo := lo.toNat_lt
  rw [fromBeBytes]
  omega

/-- What is written for a block that is long enough denotes its address. -/
theorem block_addrOf {family : UInt8} {block : List UInt8}
    (hlong : ¬ (family = 1 ∧ block.length < 12 ∨ family = 2 ∧ block.length < 36)) :
    Block family block (addrOf true family block) := by
  by_cases hinet : family = 1
  · subst hinet
    have hlength : 12 ≤ block.length := by
      by_contra hshort
      exact hlong (Or.inl ⟨rfl, by omega⟩)
    rw [addrOf, if_neg (by decide), if_pos ⟨rfl, hlength⟩]
    refine .inet hlength (Ipv4.denotes_display ?_ ?_)
    · rw [List.length_map, List.length_take]
      omega
    · intro octet hoctet
      obtain ⟨byte, -, rfl⟩ := List.mem_map.1 hoctet
      exact byte.toNat_lt
  by_cases hinet6 : family = 2
  · subst hinet6
    have hlength : 36 ≤ block.length := by
      by_contra hshort
      exact hlong (Or.inr ⟨rfl, by omega⟩)
    rw [addrOf, if_neg (by decide), if_neg (fun h => hinet h.1), if_pos ⟨rfl, hlength⟩]
    refine .inet6 hlength (Ipv6.denotes_display ?_ ?_)
    · rw [segments, List.length_map, List.length_range]
    · intro segment hsegment
      obtain ⟨i, -, rfl⟩ := List.mem_map.1 hsegment
      exact fromBeBytes_lt _ _
  · rw [addrOf, if_neg (by decide), if_neg (fun h => hinet h.1), if_neg (fun h => hinet6 h.1)]
    exact .other hinet hinet6

/-! ## Headers and what is accepted -/

theorem V1Line.accepted {c : Conn} {line : List Char} {addr : ParsedAddr} {rest : List UInt8}
    (h : V1Line line addr) (hstream : c.stream = utf8 line ++ [0x0D, 0x0A] ++ rest)
    (hcrlf : ¬ [0x0D, 0x0A] <:+: utf8 line) (hlength : (utf8 line).length + 2 ≤ 107) :
    Accepted c line where
  first := firstLine_iff.2 ⟨rest, hstream, hcrlf⟩
  tagged := h.tagged.1
  clear := clear_near c (Nat.le_succ_of_le hlength)

/-- Every header is accepted. -/
theorem outcome_of_header {c : Conn} {addr : ParsedAddr} {rest : List UInt8}
    (h : Header c.stream addr rest) : ∃ addr', c.outcome = some (addr', rest) := by
  generalize hs : c.stream = s at h
  cases h with
  | @v1 line _ _ hline hcrlf hlength =>
      have haccepted := hline.accepted hs hcrlf hlength
      have hdrop : (utf8 line ++ [0x0D, 0x0A] ++ rest).drop ((utf8 line).length + 2) = rest :=
        List.drop_left' (by simp)
      exact ⟨_, by rw [haccepted.outcome, hs, hdrop]⟩
  | v2Local hblock =>
      have hv2 : sigV2 <+: c.stream := hs ▸ sigV2_isPrefix _ _ _ _ _ _
      rw [outcome_v2 c hv2, hs, headerV2_v2Bytes hblock, if_pos (by decide)]
      exact ⟨_, rfl⟩
  | v2Proxy hblock _ =>
      have hv2 : sigV2 <+: c.stream := hs ▸ sigV2_isPrefix _ _ _ _ _ _
      rw [outcome_v2 c hv2, hs, headerV2_v2Bytes hblock, if_pos (by decide)]
      exact ⟨_, rfl⟩

/-- What is accepted and of none of the kinds is a header with that address. -/
theorem header_of_outcome {c : Conn} (hdev : ¬ Deviant c) {addr : ParsedAddr}
    {rest : List UInt8} (h : c.outcome = some (addr, rest)) : Header c.stream addr rest := by
  by_cases hv2 : sigV2 <+: c.stream
  · rw [outcome_v2 c hv2] at h
    have hlen : 16 + lenV2 c.stream ≤ c.stream.length := by
      by_contra hshort
      rw [headerV2, if_neg fun hall => hshort hall.1] at h
      cases h
    obtain ⟨verCmd, famProto, hi, lo, block, rest', hs, hblock⟩ := exists_v2Bytes hv2 hlen
    have hstart : v2Bytes verCmd famProto hi lo block <+: c.stream := ⟨rest', hs.symm⟩
    rw [hs, headerV2_v2Bytes hblock] at h
    split at h
    case isFalse => cases h
    case isTrue hversion =>
      cases h
      rw [hs]
      by_cases hlocal : verCmd = 0x20
      · subst hlocal
        exact .v2Local hblock
      by_cases hproxy : verCmd = 0x21
      · subst hproxy
        refine .v2Proxy hblock (block_addrOf fun hshort => ?_)
        exact hdev (.block famProto hi lo block hstart hblock hshort)
      · exact absurd (.command verCmd famProto hi lo block hstart hblock hversion hlocal hproxy)
          hdev
  by_cases hv1 : sigV1 <+: c.stream
  · obtain ⟨line, haccepted⟩ := accepted_of_outcome hv1 h
    rw [haccepted.outcome] at h
    cases h
    have hlength : (utf8 line).length + 2 ≤ 107 := by
      by_contra hlong
      exact hdev (.long line haccepted (by omega))
    have hheader : Header (utf8 line ++ [0x0D, 0x0A] ++ c.stream.drop ((utf8 line).length + 2))
        (sourceWord line) (c.stream.drop ((utf8 line).length + 2)) :=
      .v1 (haccepted.v1Line hdev) haccepted.first.not_infix hlength
    rwa [← haccepted.first.eq] at hheader
  · rw [outcome_other c hv2 hv1] at h
    cases h

/-- A line that is accepted is the line of the header. -/
theorem Header.v1Line {c : Conn} {addr : ParsedAddr} {rest : List UInt8}
    (h : Header c.stream addr rest) {line : List Char} (haccepted : Accepted c line) :
    V1Line line addr ∧ (utf8 line).length + 2 ≤ 107 := by
  have hv1 := haccepted.tagged.sigV1.trans haccepted.first.text
  have hv2 := not_sigV2_of_sigV1 hv1
  generalize hs : c.stream = s at h
  cases h with
  | v1 hline hcrlf hlength =>
      have hsame := haccepted.first.unique (hline.accepted hs hcrlf hlength).first
      rw [hsame]
      exact ⟨hline, hlength⟩
  | v2Local => exact absurd (hs ▸ sigV2_isPrefix _ _ _ _ _ _) hv2
  | v2Proxy => exact absurd (hs ▸ sigV2_isPrefix _ _ _ _ _ _) hv2

/-- Fields that a v2 stream starts with are those of the header. -/
theorem Header.v2Fields {s : List UInt8} {addr : ParsedAddr} {rest : List UInt8}
    (h : Header s addr rest) {verCmd famProto hi lo : UInt8} {block : List UInt8}
    (hstart : v2Bytes verCmd famProto hi lo block <+: s)
    (hblock : block.length = fromBeBytes hi lo) :
    verCmd = 0x20 ∨ verCmd = 0x21 ∧ Block (famProto >>> 4) block addr := by
  obtain ⟨rest', hs⟩ := hstart
  cases h with
  | v1 hline =>
      have hv2 := sigV2_isPrefix verCmd famProto hi lo block rest'
      rw [hs, List.append_assoc] at hv2
      have hv1 := hline.tagged.1.sigV1.trans (List.prefix_append _ ([0x0D, 0x0A] ++ rest))
      exact absurd hv2 (not_sigV2_of_sigV1 hv1)
  | v2Local hblock' => exact Or.inl (v2Bytes_inj hblock hblock' hs).1
  | v2Proxy hblock' haddr =>
      obtain ⟨rfl, rfl, rfl, -⟩ := v2Bytes_inj hblock hblock' hs
      exact Or.inr ⟨rfl, haddr⟩

theorem isSome_of_deviant {c : Conn} (h : Deviant c) : c.outcome.isSome := by
  have hv2 : ∀ {verCmd famProto hi lo : UInt8} {block : List UInt8},
      v2Bytes verCmd famProto hi lo block <+: c.stream → block.length = fromBeBytes hi lo →
      verCmd >>> 4 = 2 → c.outcome.isSome := by
    rintro verCmd famProto hi lo block ⟨rest, hs⟩ hblock hversion
    rw [outcome_v2 c (hs ▸ sigV2_isPrefix _ _ _ _ _ _), ← hs, headerV2_v2Bytes hblock,
      if_pos hversion]
    rfl
  cases h with
  | long line haccepted => rw [haccepted.outcome]; rfl
  | text line haccepted => rw [haccepted.outcome]; rfl
  | words line haccepted => rw [haccepted.outcome]; rfl
  | command verCmd famProto hi lo block hstart hblock hversion => exact hv2 hstart hblock hversion
  | block famProto hi lo block hstart hblock => exact hv2 hstart hblock (by decide)

theorem not_header_of_deviant {c : Conn} (h : Deviant c) (addr : ParsedAddr)
    (rest : List UInt8) : ¬ Header c.stream addr rest := by
  intro hheader
  cases h with
  | long line haccepted hlong =>
      have hlength := (hheader.v1Line haccepted).2
      omega
  | text line haccepted hproto hascii =>
      exact hascii ((hheader.v1Line haccepted).1.ascii hproto)
  | words line haccepted hwords =>
      obtain ⟨htcp4, htcp6⟩ := (hheader.v1Line haccepted).1.endpoints
      rcases hwords with ⟨hproto, hends⟩ | ⟨hproto, hends⟩
      · exact hends (htcp4 hproto)
      · exact hends (htcp6 hproto)
  | command verCmd famProto hi lo block hstart hblock _ hlocal hproxy =>
      obtain rfl | ⟨rfl, -⟩ := hheader.v2Fields hstart hblock
      · exact hlocal rfl
      · exact hproxy rfl
  | block famProto hi lo block hstart hblock hshort =>
      obtain hlocal | ⟨-, haddr⟩ := hheader.v2Fields hstart hblock
      · exact absurd hlocal (by decide)
      · generalize famProto >>> 4 = family at haddr hshort
        cases haddr with
        | inet hlength =>
            obtain ⟨-, hshort⟩ | ⟨hinet6, -⟩ := hshort
            · omega
            · exact absurd hinet6 (by decide)
        | inet6 hlength =>
            obtain ⟨hinet, -⟩ | ⟨-, hshort⟩ := hshort
            · exact absurd hinet (by decide)
            · omega
        | other hinet hinet6 =>
            obtain ⟨h, -⟩ | ⟨h, -⟩ := hshort
            · exact hinet h
            · exact hinet6 h

/-- What is accepted is a header, and the address is its source address, just when the
input is of none of the kinds. -/
theorem exact_iff (c : Conn) : Exact c ↔ ¬ Deviant c := by
  constructor
  · rintro ⟨haccepts, -⟩ hdev
    obtain ⟨addr, rest, hheader⟩ := haccepts.1 (isSome_of_deviant hdev)
    exact not_header_of_deviant hdev addr rest hheader
  · intro hdev
    refine ⟨⟨fun hsome => ?_, ?_⟩, fun addr rest => header_of_outcome hdev⟩
    · obtain ⟨⟨addr, rest⟩, hr⟩ := Option.isSome_iff_exists.1 hsome
      exact ⟨addr, rest, header_of_outcome hdev hr⟩
    · rintro ⟨addr, rest, hheader⟩
      obtain ⟨addr', haddr'⟩ := outcome_of_header hheader
      rw [haddr']
      rfl

/-- A word that is no address, and no other word. -/
def forged : Conn := Conn.bytewise (utf8 "PROXY TCP4 foo".toList ++ [0x0D, 0x0A])

theorem forged_stream : forged.stream = utf8 "PROXY TCP4 foo".toList ++ [0x0D, 0x0A] :=
  bytewise_stream _

theorem forged_accepted : forged.outcome = some (some "foo".toList, []) ∧ ¬ Exact forged := by
  have hfirst : FirstLine forged.stream "PROXY TCP4 foo".toList := by
    rw [forged_stream]
    exact ⟨by decide, List.prefix_append _ _⟩
  have haccepted : Accepted forged "PROXY TCP4 foo".toList :=
    ⟨hfirst, ⟨by decide, by decide⟩, clear_near forged (by decide)⟩
  refine ⟨?_, fun hexact => ?_⟩
  · rw [haccepted.outcome, forged_stream]
    decide
  · obtain ⟨addr, rest, hheader⟩ := hexact.1.1 (by rw [haccepted.outcome]; rfl)
    have hends := (hheader.v1Line haccepted).1.endpoints.1 (by decide)
    have hwords : ("PROXY TCP4 foo".toList.splitOn ' ').drop 2 = ["foo".toList] := by decide
    rw [hwords] at hends
    cases hends

/-- The longest run of zeros is left out. -/
example : addrOf true 2 ([0x20, 0x01, 0x0d, 0xb8, 0, 0, 0, 0, 0, 1, 0, 0, 0, 0, 0, 1] ++
    List.replicate 20 0) = some "2001:db8::1:0:0:1".toList := by decide

end Proxy
end OxideHttp
