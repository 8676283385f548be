import Mathlib.Data.List.Nodup
import Mathlib.Data.List.TakeWhile
import Mathlib.Tactic.Common

/-!
# The text format of metrics

The exposition format of Prometheus, version 0.0.4, as lists of characters: lines of help, of
types and of samples, each ended by a line feed.  A sample has a name, labels in braces and a
value.  Timestamps and other comments are not read.

This file gives

* `writeText`, `parse`: the lines as text, and their reader;
* `Line.Proper`: a line without anything to escape;
* `valueOf`: the value of a series;
* `parse_writeText`: proper lines are read back.
-/

namespace Exposition

structure Sample where
  name : List Char
  labels : List (List Char × List Char)
  value : List Char
  deriving DecidableEq, Repr

inductive Line where
  | help (name text : List Char)
  | type (name kind : List Char)
  | sample (s : Sample)
  deriving DecidableEq, Repr

/-! ## Writing -/

def writeLabel (l : List Char × List Char) : List Char := l.1 ++ '=' :: '"' :: (l.2 ++ ['"'])

/-- Labels and the closing brace. -/
def writeLabels : List (List Char × List Char) → List Char
  | [] => ['\x7d']
  | [l] => writeLabel l ++ ['\x7d']
  | l :: ls => writeLabel l ++ ',' :: writeLabels ls

def writeSample (s : Sample) : List Char :=
  match s.labels with
  | [] => s.name ++ ' ' :: s.value
  | ls => s.name ++ '\x7b' :: (writeLabels ls ++ ' ' :: s.value)

def helpTag : List Char := ['#', ' ', 'H', 'E', 'L', 'P', ' ']

def typeTag : List Char := ['#', ' ', 'T', 'Y', 'P', 'E', ' ']

def Line.write : Line → List Char
  | .help name text => helpTag ++ (name ++ ' ' :: text)
  | .type name kind => typeTag ++ (name ++ ' ' :: kind)
  | .sample s => writeSample s

def writeText (ls : List Line) : List Char := ls.flatMap fun l => l.write ++ ['\n']

/-! ## Reading -/

def isNameChar (c : Char) : Bool := c.isAlphanum || c = '_' || c = ':'

/-- The value of a label after its opening quote, and what follows the closing one. -/
def quoted : List Char → Option (List Char × List Char)
  | [] => none
  | '"' :: rest => some ([], rest)
  | '\\' :: '\\' :: rest => (quoted rest).map fun r => ('\\' :: r.1, r.2)
  | '\\' :: '"' :: rest => (quoted rest).map fun r => ('"' :: r.1, r.2)
  | '\\' :: 'n' :: rest => (quoted rest).map fun r => ('\n' :: r.1, r.2)
  | '\\' :: _ => none
  | c :: rest => (quoted rest).map fun r => (c :: r.1, r.2)

/-- Labels up to the closing brace; the number bounds how many. -/
def readLabels : Nat → List Char → Option (List (List Char × List Char) × List Char)
  | 0, _ => none
  | fuel + 1, text =>
      match text.dropWhile isNameChar with
      | '=' :: '"' :: rest =>
          (quoted rest).bind fun v =>
            match v.2 with
            | '\x7d' :: rest => some ([(text.takeWhile isNameChar, v.1)], rest)
            | ',' :: rest =>
                (readLabels fuel rest).map fun r => ((text.takeWhile isNameChar, v.1) :: r.1, r.2)
            | _ => none
      | _ => none

/-- A value is one word. -/
def readValue (text : List Char) : Option (List Char) :=
  if text = [] ∨ ' ' ∈ text then none else some text

def readSample (text : List Char) : Option Sample :=
  let name := text.takeWhile isNameChar
  if name = [] then none
  else
    match text.dropWhile isNameChar with
    | ' ' :: rest => (readValue rest).map fun v => ⟨name, [], v⟩
    | '\x7b' :: rest =>
        (readLabels rest.length rest).bind fun r =>
          match r.2 with
          | ' ' :: rest => (readValue rest).map fun v => ⟨name, r.1, v⟩
          | _ => none
    | _ => none

/-- A name, and the text after a blank. -/
def readWord (text : List Char) : Option (List Char × List Char) :=
  match text.dropWhile isNameChar with
  | ' ' :: rest => some (text.takeWhile isNameChar, rest)
  | _ => none

def readLine (text : List Char) : Option Line :=
  if helpTag.isPrefixOf text then (readWord (text.drop helpTag.length)).map fun r => .help r.1 r.2
  else if typeTag.isPrefixOf text then
    (readWord (text.drop typeTag.length)).map fun r => .type r.1 r.2
  else (readSample text).map .sample

/-- The lines of a text; the last one is ended as well. -/
def parse (text : List Char) : Option (List Line) :=
  let lines := text.splitOn '\n'
  if lines.getLast? = some [] then lines.dropLast.mapM readLine else none

/-! ## Lines without anything to escape -/

def IsName (s : List Char) : Prop := s ≠ [] ∧ s.all isNameChar = true

/-- Nothing in it ends a label or a line. -/
def IsPlain (s : List Char) : Prop := '"' ∉ s ∧ '\\' ∉ s ∧ '\n' ∉ s

instance (s : List Char) : Decidable (IsName s) :=
  inferInstanceAs (Decidable (s ≠ [] ∧ s.all isNameChar = true))

instance (s : List Char) : Decidable (IsPlain s) :=
  inferInstanceAs (Decidable ('"' ∉ s ∧ '\\' ∉ s ∧ '\n' ∉ s))

structure Sample.Proper (s : Sample) : Prop where
  name : IsName s.name
  labels : ∀ l ∈ s.labels, IsName l.1 ∧ IsPlain l.2
  value : s.value ≠ [] ∧ ' ' ∉ s.value ∧ '\n' ∉ s.value

def Line.Proper : Line → Prop
  | .help name text => IsName name ∧ '\n' ∉ text
  | .type name kind => IsName name ∧ '\n' ∉ kind
  | .sample s => s.Proper

/-! ## Series -/

/-- A series is told by its name and its labels. -/
def Sample.key (s : Sample) : List Char × List (List Char × List Char) := (s.name, s.labels)

def Line.asSample : Line → Option Sample
  | .sample s => some s
  | _ => none

def samplesOf (ls : List Line) : List Sample := ls.filterMap Line.asSample

/-- The value of a series. -/
def valueOf (ls : List Line) (key : List Char × List (List Char × List Char)) :
    Option (List Char) :=
  ((samplesOf ls).find? fun s => s.key = key).map Sample.value

theorem samplesOf_append (ls ms : List Line) : samplesOf (ls ++ ms) = samplesOf ls ++ samplesOf ms :=
  List.filterMap_append

theorem samplesOf_map (ss : List Sample) : samplesOf (ss.map .sample) = ss := by
  rw [samplesOf, List.filterMap_map]
  exact List.filterMap_some

/-- Where every series is told once, a sample is the value of its series. -/
theorem valueOf_of_mem {ls : List Line} (h : ((samplesOf ls).map Sample.key).Nodup) {s : Sample}
    (hs : s ∈ samplesOf ls) : valueOf ls s.key = some s.value := by
  have hsome : ((samplesOf ls).find? fun t => t.key = s.key).isSome = true :=
    List.find?_isSome.2 ⟨s, hs, decide_eq_true rfl⟩
  obtain ⟨t, ht⟩ := Option.isSome_iff_exists.1 hsome
  have hkey := List.find?_some ht
  rw [decide_eq_true_iff] at hkey
  obtain rfl := List.inj_on_of_nodup_map h (List.mem_of_find?_eq_some ht) hs hkey
  rw [valueOf, ht, Option.map_some]

theorem valueOf_eq_none {ls : List Line} {key : List Char × List (List Char × List Char)}
    (h : ∀ s ∈ samplesOf ls, s.key ≠ key) : valueOf ls key = none := by
  refine Option.map_eq_none_iff.2 (List.find?_eq_none.2 fun s hs => ?_)
  exact fun hkey => h s hs (of_decide_eq_true hkey)

/-! ## Round trip -/

theorem span_name {s rest : List Char} (h : s.all isNameChar = true)
    (hrest : ∀ c ∈ rest.head?, isNameChar c = false) :
    (s ++ rest).takeWhile isNameChar = s ∧ (s ++ rest).dropWhile isNameChar = rest := by
  have hall : ∀ c ∈ s, isNameChar c = true := List.all_eq_true.1 h
  rw [List.takeWhile_append_of_pos hall, List.dropWhile_append_of_pos hall]
  cases rest with
  | nil => simp
  | cons c rest => simp [hrest c rfl]

/-- A name ends before such a character. -/
theorem head_of {c : Char} (h : isNameChar c = false) (rest : List Char) :
    ∀ d ∈ (c :: rest).head?, isNameChar d = false := by
  intro d hd
  obtain rfl := Option.some.inj hd
  exact h

theorem quoted_cons {c : Char} (hquote : c ≠ '"') (hslash : c ≠ '\\') (rest : List Char) :
    quoted (c :: rest) = (quoted rest).map fun r => (c :: r.1, r.2) := by
  rw [quoted.eq_def]
  split <;> simp_all

theorem quoted_plain {s : List Char} (h : IsPlain s) (rest : List Char) :
    quoted (s ++ '"' :: rest) = some (s, rest) := by
  obtain ⟨hquote, hslash, -⟩ := h
  induction s with
  | nil => rfl
  | cons c s ih =>
      rw [List.mem_cons, not_or] at hquote hslash
      rw [List.cons_append, quoted_cons (Ne.symm hquote.1) (Ne.symm hslash.1),
        ih hquote.2 hslash.2]
      rfl

theorem writeLabels_cons (l l' : List Char × List Char) (ls : List (List Char × List Char)) :
    writeLabels (l :: l' :: ls) = writeLabel l ++ ',' :: writeLabels (l' :: ls) := rfl

theorem readLabels_writeLabels {ls : List (List Char × List Char)} (hne : ls ≠ [])
    (h : ∀ l ∈ ls, IsName l.1 ∧ IsPlain l.2) {fuel : Nat} (hfuel : ls.length ≤ fuel)
    (rest : List Char) : readLabels fuel (writeLabels ls ++ rest) = some (ls, rest) := by
  induction ls generalizing fuel with
  | nil => exact absurd rfl hne
  | cons l ls ih =>
      obtain ⟨fuel, rfl⟩ : ∃ n, fuel = n + 1 := ⟨fuel - 1, by simp at hfuel; omega⟩
      obtain ⟨hname, hplain⟩ := h l List.mem_cons_self
      have hspan (t : List Char) := span_name hname.2
        (head_of (c := '=') (by decide) ('"' :: (l.2 ++ '"' :: t)))
      cases ls with
      | nil =>
          have htext : writeLabels [l] ++ rest =
              l.1 ++ '=' :: '"' :: (l.2 ++ '"' :: '\x7d' :: rest) := by
            simp [writeLabels, writeLabel]
          rw [htext, readLabels, (hspan _).1, (hspan _).2]
          simp [quoted_plain hplain]
      | cons l' ls =>
          have htext : writeLabels (l :: l' :: ls) ++ rest =
              l.1 ++ '=' :: '"' :: (l.2 ++ '"' :: ',' :: (writeLabels (l' :: ls) ++ rest)) := by
            simp [writeLabels_cons, writeLabel]
          have htail := ih (List.cons_ne_nil _ _) (fun m hm => h m (List.mem_cons_of_mem _ hm))
            (Nat.le_of_succ_le_succ hfuel)
          rw [htext, readLabels, (hspan _).1, (hspan _).2]
          simp [quoted_plain hplain, htail]

theorem length_le_writeLabels (ls : List (List Char × List Char)) :
    ls.length ≤ (writeLabels ls).length := by
  induction ls with
  | nil => simp
  | cons l ls ih =>
      cases ls with
      | nil =>
          simp only [writeLabels, writeLabel, List.length_append, List.length_cons]
          omega
      | cons l' ls =>
          rw [writeLabels_cons]
          simp only [List.length_cons, List.length_append] at ih ⊢
          omega

theorem readValue_proper {v : List Char} (h : v ≠ [] ∧ ' ' ∉ v ∧ '\n' ∉ v) :
    readValue v = some v := by
  rw [readValue, if_neg (not_or.2 ⟨h.1, h.2.1⟩)]

theorem readSample_writeSample {s : Sample} (h : s.Proper) : readSample (writeSample s) = some s := by
  obtain ⟨name, labels, value⟩ := s
  obtain ⟨⟨hname, hchars⟩, hlabels, hvalue⟩ := h
  dsimp only at hname hchars hlabels hvalue
  cases labels with
  | nil =>
      obtain ⟨htake, hdrop⟩ := span_name hchars (head_of (c := ' ') (by decide) value)
      simp [readSample, writeSample, htake, hdrop, hname, readValue_proper hvalue]
  | cons l ls =>
      obtain ⟨htake, hdrop⟩ := span_name hchars
        (head_of (c := '\x7b') (by decide) (writeLabels (l :: ls) ++ ' ' :: value))
      have hfuel : (l :: ls).length ≤ (writeLabels (l :: ls) ++ ' ' :: value).length := by
        have hle := length_le_writeLabels (l :: ls)
        rw [List.length_append]
        omega
      have hread := readLabels_writeLabels (List.cons_ne_nil l ls) hlabels hfuel (' ' :: value)
      simp only [readSample, writeSample, htake, hdrop, hname, if_false, hread, Option.bind_some,
        readValue_proper hvalue, Option.map_some]

theorem readWord_name {name : List Char} (h : IsName name) (text : List Char) :
    readWord (name ++ ' ' :: text) = some (name, text) := by
  obtain ⟨htake, hdrop⟩ := span_name h.2 (head_of (c := ' ') (by decide) text)
  simp [readWord, htake, hdrop]

/-- A sample is not taken for a comment. -/
theorem head_writeSample {s : Sample} (h : IsName s.name) :
    ∃ c t, writeSample s = c :: t ∧ c ≠ '#' := by
  obtain ⟨name, labels, value⟩ := s
  obtain ⟨hne, hchars⟩ := h
  cases name with
  | nil => exact absurd rfl hne
  | cons c name =>
      have hc : c ≠ '#' := by
        rintro rfl
        have hhash := List.all_eq_true.1 hchars '#' List.mem_cons_self
        exact absurd hhash (by decide)
      cases labels with
      | nil => exact ⟨c, _, rfl, hc⟩
      | cons l ls => exact ⟨c, _, rfl, hc⟩

theorem readLine_write {l : Line} (h : l.Proper) : readLine l.write = some l := by
  cases l with
  | help name text =>
      have hword := readWord_name h.1 text
      simp [readLine, Line.write, helpTag, hword]
  | type name kind =>
      have hword := readWord_name h.1 kind
      simp [readLine, Line.write, helpTag, typeTag, hword]
  | sample s =>
      obtain ⟨c, t, htext, hc⟩ := head_writeSample h.name
      have hread := readSample_writeSample h
      have hneq : '#' ≠ c := Ne.symm hc
      have hhelp : helpTag.isPrefixOf (writeSample s) = false := by
        simp [helpTag, htext, List.isPrefixOf, hneq]
      have htype : typeTag.isPrefixOf (writeSample s) = false := by
        simp [typeTag, htext, List.isPrefixOf, hneq]
      rw [readLine, Line.write, hhelp, htype, hread]
      rfl

theorem not_mem_of_name {s : List Char} (h : s.all isNameChar = true) {c : Char}
    (hc : isNameChar c = false) : c ∉ s := by
  intro hmem
  have htrue := List.all_eq_true.1 h c hmem
  rw [hc] at htrue
  cases htrue

theorem newline_writeLabels {ls : List (List Char × List Char)}
    (h : ∀ l ∈ ls, IsName l.1 ∧ IsPlain l.2) : '\n' ∉ writeLabels ls := by
  induction ls with
  | nil => simp [writeLabels]
  | cons l ls ih =>
      obtain ⟨hname, hplain⟩ := h l List.mem_cons_self
      have hkey : '\n' ∉ l.1 := not_mem_of_name hname.2 (by decide)
      have htail := ih fun m hm => h m (List.mem_cons_of_mem _ hm)
      have hvalue : '\n' ∉ l.2 := hplain.2.2
      cases ls with
      | nil => simp [writeLabels, writeLabel, hkey, hvalue]
      | cons l' ls => simp [writeLabels_cons, writeLabel, hkey, hvalue, htail]

theorem newline_write {l : Line} (h : l.Proper) : '\n' ∉ l.write := by
  have hname {s : List Char} (hs : IsName s) : '\n' ∉ s := not_mem_of_name hs.2 (by decide)
  cases l with
  | help name text => simp [Line.write, helpTag, hname h.1, h.2]
  | type name kind => simp [Line.write, typeTag, hname h.1, h.2]
  | sample s =>
      obtain ⟨name, labels, value⟩ := s
      have hlabels := newline_writeLabels h.labels
      have hkey : '\n' ∉ name := hname h.name
      have hvalue : '\n' ∉ value := h.value.2.2
      cases labels with
      | nil => simp [Line.write, writeSample, hkey, hvalue]
      | cons l ls => simp [Line.write, writeSample, hkey, hvalue, hlabels]

/-- Lines that are each ended are cut apart again. -/
theorem splitOn_ended {l : List (List Char)} (h : ∀ t ∈ l, '\n' ∉ t) :
    (l.flatMap fun t => t ++ ['\n']).splitOn '\n' = l ++ [[]] := by
  induction l with
  | nil => rfl
  | cons t l ih =>
      rw [List.flatMap_cons, List.append_assoc, List.singleton_append,
        List.splitOn_append_cons_self_of_not_mem (h t List.mem_cons_self),
        ih fun m hm => h m (List.mem_cons_of_mem _ hm)]
      rfl

theorem mapM_readLine {ls : List Line} (h : ∀ l ∈ ls, l.Proper) :
    (ls.map Line.write).mapM readLine = some ls := by
  induction ls with
  | nil => rfl
  | cons l ls ih =>
      have htail := ih fun m hm => h m (List.mem_cons_of_mem _ hm)
      simp [readLine_write (h l List.mem_cons_self), htail]

theorem writeText_append (ls ms : List Line) : writeText (ls ++ ms) = writeText ls ++ writeText ms :=
  List.flatMap_append

/-- Proper lines are read back. -/
theorem parse_writeText {ls : List Line} (h : ∀ l ∈ ls, l.Proper) :
    parse (writeText ls) = some ls := by
  have hread : (ls.map Line.write).mapM readLine = some ls := mapM_readLine h
  have hsplit : (writeText ls).splitOn '\n' = ls.map Line.write ++ [[]] := by
    have hended := splitOn_ended (l := ls.map Line.write) (by
      intro t ht
      obtain ⟨l, hl, rfl⟩ := List.mem_map.1 ht
      exact newline_write (h l hl))
    rwa [List.flatMap_map] at hended
  rw [parse, hsplit]
  simp [hread]

end Exposition
