import DocTemplate.Proofs.WrittenTags

/-!
# The grammar of option lists

An option list is a row of pairs `key:"value"`, followed by what its end has left of one more pair.
A key goes up to the first colon, a gap up to the first quote, and a value is made of characters
other than quote and backslash and of characters behind a backslash. Every text is such a list, in
exactly one way, so the grammar refuses nothing: it tells which pairs are complete, which one is cut
off, and what is wrong with them.

A scan goes through a text once and remembers very little of it. What it remembers after some
characters is what the list that they spell says about it, and that is carried on character by
character.

## Main statements

- `OptionList.read_spelling`: a list is the only one with its spelling
- `OptionTail.not_prefix`: what is left of a pair does not begin with a complete one
- `OptionList.scan_push`: a scan keeps to the grammar with every character
- `readOptions_grammar`: the options of a list and what is wrong with it
-/

namespace DocTemplate

/-! ## Parts of a pair -/

/-- A key as it is written, up to the colon. -/
structure OptionKey where
  text : List Char
  no_colon : ':' ∉ text

/-- What is written between the colon and the opening quote. -/
structure OptionGap where
  text : List Char
  no_quote : '"' ∉ text

/-- A character of a value as it is written: as itself, or behind a backslash. -/
inductive ValueChar where
  | plain (c : Char) (ordinary : c ≠ '"' ∧ c ≠ '\\')
  | escaped (c : Char)

namespace OptionKey

/-- No key has been written yet. -/
def empty : OptionKey := ⟨[], by simp⟩

/-- The key with one more character. -/
def add (k : OptionKey) (c : Char) (h : c ≠ ':') : OptionKey :=
  ⟨k.text ++ [c], by simpa [k.no_colon] using Ne.symm h⟩

/-- The name that a key stands for: blanks at its ends do not belong to it. -/
def name (k : OptionKey) : List Char := Text.trim k.text

/-- A space inside a name is reported with the number of bytes before it. -/
def causes (k : OptionKey) : List Cause :=
  if ' ' ∈ k.name then
    [.blankInKey (Text.byteLength (k.name.takeWhile (· ≠ ' '))) (String.ofList k.name)]
  else []

end OptionKey

namespace OptionGap

/-- No gap has been written yet. -/
def empty : OptionGap := ⟨[], by simp⟩

/-- The gap with one more character. -/
def add (g : OptionGap) (c : Char) (h : c ≠ '"') : OptionGap :=
  ⟨g.text ++ [c], by simpa [g.no_quote] using Ne.symm h⟩

/-- Something other than spaces stands in the gap. -/
def isStray (g : OptionGap) : Bool := g.text.any (· ≠ ' ')

/-- Anything but spaces in the gap behind a key is reported, once. -/
def causes (g : OptionGap) (k : OptionKey) : List Cause :=
  if g.isStray then [.strayBeforeQuote (String.ofList k.name)] else []

theorem isStray_add (g : OptionGap) {c : Char} (h : c ≠ '"') :
    (g.add c h).isStray = (g.isStray || c ≠ ' ') := by
  simp [isStray, add]

end OptionGap

namespace ValueChar

def spelling : ValueChar → List Char
  | plain c _ => [c]
  | escaped c => ['\\', c]

/-- The character that is meant. -/
def meaning : ValueChar → Char
  | plain c _ => c
  | escaped c => c

end ValueChar

/-! ## Pairs -/

/-- A complete pair as it is written. -/
structure OptionSegment where
  key : OptionKey
  gap : OptionGap
  value : List ValueChar

namespace OptionSegment

def spelling (s : OptionSegment) : List Char :=
  s.key.text ++ ':' :: (s.gap.text ++ '"' :: (s.value.flatMap ValueChar.spelling ++ ['"']))

/-- The name and the value. -/
def pair (s : OptionSegment) : String × String :=
  (String.ofList s.key.name, String.ofList (s.value.map ValueChar.meaning))

def causes (s : OptionSegment) : List Cause := s.key.causes ++ s.gap.causes s.key

end OptionSegment

/-- What the end of a list leaves of a pair: a piece of the key, the key and a piece of the gap, or
all but the closing quote. A value may break off right behind a backslash. -/
inductive OptionTail where
  | key (key : OptionKey)
  | gap (key : OptionKey) (gap : OptionGap)
  | value (key : OptionKey) (gap : OptionGap) (value : List ValueChar) (backslash : Bool)

namespace OptionTail

def spelling : OptionTail → List Char
  | key k => k.text
  | gap k g => k.text ++ ':' :: g.text
  | value k g v backslash =>
    k.text ++ ':' :: (g.text ++ '"' :: (v.flatMap ValueChar.spelling ++
      if backslash then ['\\'] else []))

/-- The name and the value as far as it was written; a lone backslash at its end stands for
nothing. -/
def pair : OptionTail → String × String
  | key k => (String.ofList k.name, "")
  | gap k _ => (String.ofList k.name, "")
  | value k _ v _ => (String.ofList k.name, String.ofList (v.map ValueChar.meaning))

/-- What is wrong with the key and the gap; a key without a colon is not looked at. -/
def headCauses : OptionTail → List Cause
  | key _ => []
  | gap k g => k.causes ++ g.causes k
  | value k g _ _ => k.causes ++ g.causes k

/-- A tail counts as a pair unless there is nothing of it. -/
def pairs (t : OptionTail) : List (String × String) :=
  if t.spelling = [] then [] else [t.pair]

/-- That the list breaks off is reported last. -/
def causes (t : OptionTail) : List Cause :=
  t.headCauses ++ if t.spelling = [] then [] else [.unfinishedOption t.pair.1]

end OptionTail

/-! ## Lists -/

/-- Complete pairs, and what is left of one more. -/
structure OptionList where
  segments : List OptionSegment
  tail : OptionTail

namespace OptionList

def spelling (l : OptionList) : List Char :=
  l.segments.flatMap OptionSegment.spelling ++ l.tail.spelling

/-- The options: of two pairs with one name the later one counts. -/
def options (l : OptionList) : OptionMap :=
  Dict.ofList (l.segments.map OptionSegment.pair ++ l.tail.pairs)

/-- What is wrong, pair by pair. -/
def causes (l : OptionList) : List Cause :=
  l.segments.flatMap OptionSegment.causes ++ l.tail.causes

/-- Some pairs with nothing behind them. -/
def ofSegments (segments : List OptionSegment) : OptionList := ⟨segments, .key .empty⟩

/-- The list with one more character. -/
def push (l : OptionList) (c : Char) : OptionList :=
  match l.tail with
  | .key k =>
    if h : c = ':' then { l with tail := .gap k .empty } else { l with tail := .key (k.add c h) }
  | .gap k g =>
    if h : c = '"' then { l with tail := .value k g [] false }
    else { l with tail := .gap k (g.add c h) }
  | .value k g v false =>
    if h : c = '\\' then { l with tail := .value k g v true }
    else if h' : c = '"' then ofSegments (l.segments ++ [⟨k, g, v⟩])
    else { l with tail := .value k g (v ++ [.plain c ⟨h', h⟩]) false }
  | .value k g v true => { l with tail := .value k g (v ++ [.escaped c]) false }

/-- The list that a text spells. -/
def read (cs : List Char) : OptionList := cs.foldl push (ofSegments [])

/-- A character is added at the end. -/
theorem spelling_push (l : OptionList) (c : Char) : (l.push c).spelling = l.spelling ++ [c] := by
  obtain ⟨segments, tail⟩ := l
  cases tail with
  | key k =>
    by_cases h : c = ':' <;> simp [push, h, spelling, OptionTail.spelling, OptionKey.add,
      OptionGap.empty]
  | gap k g =>
    by_cases h : c = '"' <;> simp [push, h, spelling, OptionTail.spelling, OptionGap.add]
  | value k g v backslash =>
    cases backslash with
    | true => simp [push, spelling, OptionTail.spelling, ValueChar.spelling]
    | false =>
      by_cases h : c = '\\'
      · simp [push, h, spelling, OptionTail.spelling]
      · by_cases h' : c = '"'
        · simp [push, h', spelling, ofSegments, OptionTail.spelling, OptionSegment.spelling,
            OptionKey.empty]
        · simp [push, h, h', spelling, OptionTail.spelling, ValueChar.spelling]

theorem spelling_foldl_push (l : OptionList) (cs : List Char) :
    (cs.foldl push l).spelling = l.spelling ++ cs := by
  induction cs generalizing l with
  | nil => simp
  | cons c cs ih =>
    rw [List.foldl_cons, ih, spelling_push, List.append_assoc, List.singleton_append]

/-- Every text is spelled by a list. -/
theorem spelling_read (cs : List Char) : (read cs).spelling = cs := by
  rw [read, spelling_foldl_push]
  rfl

/-! ### A spelling has one list -/

variable (segments : List OptionSegment)

/-- Behind complete pairs, a text without a colon goes into the key. -/
theorem foldl_push_key (k : OptionKey) {cs : List Char} (h : ':' ∉ cs) :
    cs.foldl push ⟨segments, .key k⟩ =
      ⟨segments, .key ⟨k.text ++ cs, by simp [k.no_colon, h]⟩⟩ := by
  induction cs generalizing k with
  | nil => simp
  | cons c cs ih =>
    obtain ⟨hc, hcs⟩ : ':' ≠ c ∧ ':' ∉ cs := by simpa using h
    have hstep : push ⟨segments, .key k⟩ c = ⟨segments, .key (k.add c (Ne.symm hc))⟩ := by
      simp [push, Ne.symm hc]
    rw [List.foldl_cons, hstep, ih _ hcs]
    simp [OptionKey.add]

theorem foldl_push_gap (k : OptionKey) (g : OptionGap) {cs : List Char} (h : '"' ∉ cs) :
    cs.foldl push ⟨segments, .gap k g⟩ =
      ⟨segments, .gap k ⟨g.text ++ cs, by simp [g.no_quote, h]⟩⟩ := by
  induction cs generalizing g with
  | nil => simp
  | cons c cs ih =>
    obtain ⟨hc, hcs⟩ : '"' ≠ c ∧ '"' ∉ cs := by simpa using h
    have hstep : push ⟨segments, .gap k g⟩ c = ⟨segments, .gap k (g.add c (Ne.symm hc))⟩ := by
      simp [push, Ne.symm hc]
    rw [List.foldl_cons, hstep, ih _ hcs]
    simp [OptionGap.add]

theorem foldl_push_value (k : OptionKey) (g : OptionGap) (v w : List ValueChar) :
    (w.flatMap ValueChar.spelling).foldl push ⟨segments, .value k g v false⟩ =
      ⟨segments, .value k g (v ++ w) false⟩ := by
  induction w generalizing v with
  | nil => simp
  | cons x w ih =>
    have hstep : x.spelling.foldl push ⟨segments, .value k g v false⟩ =
        ⟨segments, .value k g (v ++ [x]) false⟩ := by
      cases x with
      | plain c ordinary => simp [ValueChar.spelling, push, ordinary.1, ordinary.2]
      | escaped c => simp [ValueChar.spelling, push]
    rw [List.flatMap_cons, List.foldl_append, hstep, ih, List.append_assoc, List.singleton_append]

/-- What is written up to the colon of a pair. -/
theorem foldl_push_throughColon (k : OptionKey) (cs : List Char) :
    (k.text ++ ':' :: cs).foldl push (ofSegments segments) =
      cs.foldl push ⟨segments, .gap k .empty⟩ := by
  rw [List.foldl_append, ofSegments, foldl_push_key segments _ k.no_colon]
  simp [OptionKey.empty, push]

/-- What is written up to the opening quote of a pair. -/
theorem foldl_push_throughQuote (k : OptionKey) (g : OptionGap) (cs : List Char) :
    (k.text ++ ':' :: (g.text ++ '"' :: cs)).foldl push (ofSegments segments) =
      cs.foldl push ⟨segments, .value k g [] false⟩ := by
  rw [foldl_push_throughColon, List.foldl_append, foldl_push_gap segments k _ g.no_quote]
  simp [OptionGap.empty, push]

theorem foldl_push_segment (s : OptionSegment) :
    s.spelling.foldl push (ofSegments segments) = ofSegments (segments ++ [s]) := by
  rw [OptionSegment.spelling, foldl_push_throughQuote, List.foldl_append, foldl_push_value]
  simp [push]

theorem foldl_push_segments (more : List OptionSegment) :
    (more.flatMap OptionSegment.spelling).foldl push (ofSegments segments) =
      ofSegments (segments ++ more) := by
  induction more generalizing segments with
  | nil => simp
  | cons s more ih =>
    rw [List.flatMap_cons, List.foldl_append, foldl_push_segment, ih, List.append_assoc,
      List.singleton_append]

theorem foldl_push_tail (t : OptionTail) :
    t.spelling.foldl push (ofSegments segments) = ⟨segments, t⟩ := by
  cases t with
  | key k =>
    rw [OptionTail.spelling, ofSegments, foldl_push_key segments _ k.no_colon]
    simp [OptionKey.empty]
  | gap k g =>
    rw [OptionTail.spelling, foldl_push_throughColon, foldl_push_gap segments k _ g.no_quote]
    simp [OptionGap.empty]
  | value k g v backslash =>
    rw [OptionTail.spelling, foldl_push_throughQuote, List.foldl_append, foldl_push_value]
    cases backslash <;> simp [push]

/-- **A list is the only one with its spelling:** it is what its spelling is read as. -/
theorem read_spelling (l : OptionList) : read l.spelling = l := by
  rw [read, spelling, List.foldl_append, foldl_push_segments, List.nil_append, foldl_push_tail]

end OptionList

/-! ### Tails -/

/-- Complete pairs stay complete, whatever follows. -/
theorem OptionList.segments_prefix_foldl_push (l : OptionList) (cs : List Char) :
    l.segments <+: (cs.foldl OptionList.push l).segments := by
  induction cs generalizing l with
  | nil => exact List.prefix_rfl
  | cons c cs ih =>
    refine List.IsPrefix.trans ?_ (ih (l.push c))
    unfold OptionList.push
    repeat' split
    all_goals simp [OptionList.ofSegments]

/-- **What is left of a pair does not begin with a complete one.** -/
theorem OptionTail.not_prefix (t : OptionTail) (s : OptionSegment) :
    ¬ s.spelling <+: t.spelling := by
  rintro ⟨more, hmore⟩
  -- Reading the tail would have to put a complete pair into the list.
  have hread := OptionList.foldl_push_tail [] t
  rw [← hmore, List.foldl_append, OptionList.foldl_push_segment] at hread
  have hprefix := OptionList.segments_prefix_foldl_push (.ofSegments ([] ++ [s])) more
  rw [hread] at hprefix
  simp [OptionList.ofSegments] at hprefix

/-- A text that does not begin with a complete pair is what is left of one. -/
theorem OptionTail.exists_of_not_prefix {cs : List Char}
    (h : ∀ s : OptionSegment, ¬ s.spelling <+: cs) : ∃ t : OptionTail, t.spelling = cs := by
  have hread := OptionList.spelling_read cs
  rw [OptionList.spelling] at hread
  cases hsegments : (OptionList.read cs).segments with
  | nil => exact ⟨(OptionList.read cs).tail, by simpa [hsegments] using hread⟩
  | cons s more =>
    refine absurd ?_ (h s)
    rw [hsegments, List.flatMap_cons, List.append_assoc] at hread
    exact ⟨_, hread⟩

/-! ## Scanning -/

/-- The offset of the first space is the length of what stands before it. -/
theorem Text.byteIndexOf?_eq (c : Char) (cs : List Char) :
    Text.byteIndexOf? c cs =
      if c ∈ cs then some (Text.byteLength (cs.takeWhile (· ≠ c))) else none := by
  suffices h : ∀ passed, Text.byteIndexOf?.go c passed cs =
      if c ∈ cs then some (passed + Text.byteLength (cs.takeWhile (· ≠ c))) else none by
    simpa [Text.byteIndexOf?] using h 0
  induction cs with
  | nil => simp [Text.byteIndexOf?.go]
  | cons d cs ih =>
    intro passed
    by_cases hd : d = c
    · simp [Text.byteIndexOf?.go, hd, Text.byteLength]
    · simp [Text.byteIndexOf?.go, hd, ih, Ne.symm hd, Text.byteLength, Nat.add_assoc]

/-- Trimming twice is trimming once. -/
theorem Text.trim_trim (cs : List Char) : Text.trim (Text.trim cs) = Text.trim cs := by
  have hleft : Text.trimLeft (Text.trimLeft cs) = Text.trimLeft cs :=
    List.dropWhile_idempotent Text.isBlank cs
  calc Text.trim (Text.trim cs)
      = Text.trim (Text.trimLeft cs) := Text.trim_trimRight (Text.trimLeft cs)
    _ = Text.trim cs := by rw [Text.trim, hleft, ← Text.trim]

/-- A trimmed text does not end with a blank. -/
theorem Text.isBlank_of_trim_eq_concat {cs ds : List Char} {c : Char}
    (h : Text.trim cs = ds ++ [c]) : Text.isBlank c = false := by
  have hne : (Text.trimLeft cs).rdropWhile Text.isBlank ≠ [] := by
    change Text.trim cs ≠ []
    simp [h]
  have hlast := List.rdropWhile_last_not Text.isBlank (Text.trimLeft cs) hne
  have hc : ((Text.trimLeft cs).rdropWhile Text.isBlank).getLast hne = c := by
    change (Text.trim cs).getLast hne = c
    simp [h]
  simpa [hc] using hlast

namespace OptionList

variable (l : OptionList)

/-- What a scan remembers of a list that it has gone through. -/
def scan : OptionScan :=
  let found := Dict.ofList (l.segments.map OptionSegment.pair)
  let causes := (l.segments.flatMap OptionSegment.causes ++ l.tail.headCauses).reverse
  match l.tail with
  | .key k => { key := k.text.reverse, pending := k.text.any (· ≠ ' '), found, causes }
  | .gap k g =>
    { phase := .beforeQuote, key := k.name.reverse, pending := k.text.any (· ≠ ' ')
      reported := g.isStray, found, causes }
  | .value k g v backslash =>
    { phase := if backslash then .escaped else .value, key := k.name.reverse
      value := (v.map ValueChar.meaning).reverse, pending := k.text.any (· ≠ ' ')
      reported := g.isStray, found, causes }

/-- A key is looked at when it ends. -/
theorem endKey_eq {s : OptionScan} {k : OptionKey} (h : s.key = k.text.reverse) :
    s.endKey =
      { s with phase := .beforeQuote, key := k.name.reverse, causes := k.causes ++ s.causes } := by
  have hname : s.keyText = k.name := by rw [OptionScan.keyText, h, List.reverse_reverse]; rfl
  rw [OptionScan.endKey, hname, Text.byteIndexOf?_eq, OptionKey.causes]
  by_cases hspace : ' ' ∈ k.name <;> simp [hspace]

/-- **A scan keeps to the grammar with every character.** -/
theorem scan_push (c : Char) : (l.push c).scan = l.scan.step c := by
  obtain ⟨segments, tail⟩ := l
  cases tail with
  | key k =>
    by_cases h : c = ':'
    · -- The key is judged here; there is at most one thing wrong with it.
      have hone : k.causes.reverse = k.causes := by
        rw [OptionKey.causes]
        split <;> rfl
      simp [push, scan, OptionScan.step, h, endKey_eq (k := k), OptionTail.headCauses,
        OptionGap.empty, OptionGap.isStray, OptionGap.causes, hone]
    · simp [push, scan, OptionScan.step, h, OptionTail.headCauses, OptionKey.add]
  | gap k g =>
    by_cases h : c = '"'
    · simp [push, scan, OptionScan.step, h, OptionTail.headCauses]
    · have hpush : push ⟨segments, .gap k g⟩ c = ⟨segments, .gap k (g.add c h)⟩ := by
        simp [push, h]
      rw [hpush]
      -- Only the first character that is no space makes a difference.
      cases hstray : g.isStray <;> by_cases hspace : c = ' ' <;>
        simp [scan, OptionScan.step, OptionTail.headCauses, h, OptionGap.causes,
          OptionGap.isStray_add, hstray, hspace]
  | value k g v backslash =>
    cases backslash with
    | true => simp [push, scan, OptionScan.step, OptionTail.headCauses, ValueChar.meaning]
    | false =>
      by_cases h : c = '\\'
      · simp [push, scan, OptionScan.step, h, OptionTail.headCauses]
      · by_cases h' : c = '"'
        · -- The pair is complete, and the scan starts over with an empty key.
          simp [push, scan, OptionScan.step, h', OptionTail.headCauses, ofSegments, OptionKey.empty,
            OptionScan.endValue, Dict.ofList, OptionSegment.pair, OptionSegment.causes]
        · simp [push, scan, OptionScan.step, h, h', OptionTail.headCauses, ValueChar.meaning]

/-- A scan of a whole text remembers what the list says that the text spells. -/
theorem foldl_step_eq (cs : List Char) : cs.foldl OptionScan.step {} = (read cs).scan := by
  suffices h : ∀ l : OptionList, cs.foldl OptionScan.step l.scan = (cs.foldl push l).scan from
    h (ofSegments [])
  induction cs with
  | nil => intro l; rfl
  | cons c cs ih =>
    intro l
    rw [List.foldl_cons, List.foldl_cons, ← scan_push, ih]

theorem keyText_scan : String.ofList l.scan.keyText = l.tail.pair.1 := by
  obtain ⟨segments, tail⟩ := l
  cases tail with
  | key k => simp [scan, OptionScan.keyText, OptionTail.pair, OptionKey.name]
  | gap k g => simp [scan, OptionScan.keyText, OptionTail.pair, OptionKey.name, Text.trim_trim]
  | value k g v backslash =>
    simp [scan, OptionScan.keyText, OptionTail.pair, OptionKey.name, Text.trim_trim]

theorem value_scan : String.ofList l.scan.value.reverse = l.tail.pair.2 := by
  obtain ⟨segments, tail⟩ := l
  cases tail <;> simp [scan, OptionTail.pair]

theorem found_scan : l.scan.found = Dict.ofList (l.segments.map OptionSegment.pair) := by
  obtain ⟨segments, tail⟩ := l
  cases tail <;> rfl

theorem causes_scan :
    l.scan.causes.reverse = l.segments.flatMap OptionSegment.causes ++ l.tail.headCauses := by
  obtain ⟨segments, tail⟩ := l
  cases tail <;> exact List.reverse_reverse _

/-- In a trimmed text, the scan notices everything that is left of a pair: what is left of a key is
more than spaces. -/
theorem scan_unfinished_iff {l : OptionList} {cs : List Char} (h : l.spelling = Text.trim cs) :
    (l.scan.pending || l.scan.phase ≠ .key) = true ↔ l.tail.spelling ≠ [] := by
  obtain ⟨segments, tail⟩ := l
  cases tail with
  | key k =>
    suffices k.text ≠ [] → k.text.any (· ≠ ' ') = true by
      simp only [scan, OptionTail.spelling, ne_eq, not_true, decide_false, Bool.or_false]
      refine ⟨?_, this⟩
      intro hany hempty
      simp [hempty] at hany
    intro hne
    -- The last character of the key is the last one of the whole text, so it is no blank.
    obtain ⟨before, c, htext⟩ := (List.eq_nil_or_concat' k.text).resolve_left hne
    have hlast : Text.trim cs = (segments.flatMap OptionSegment.spelling ++ before) ++ [c] := by
      rw [← h, spelling, OptionTail.spelling, htext, List.append_assoc]
    have hc : c ≠ ' ' := by
      rintro rfl
      exact absurd (Text.isBlank_of_trim_eq_concat hlast) (by decide)
    simp [htext, hc]
  | gap k g => simp [scan, OptionTail.spelling]
  | value k g v backslash => cases backslash <;> simp [scan, OptionTail.spelling]

/-- At the end of a trimmed text the scan gives what the list says. -/
theorem finish_scan {l : OptionList} {cs : List Char} (h : l.spelling = Text.trim cs) :
    l.scan.finish = (l.options, l.causes) := by
  rw [OptionScan.finish, keyText_scan, value_scan, found_scan]
  simp only [scan_unfinished_iff h]
  by_cases hempty : l.tail.spelling = []
  · simp [hempty, causes_scan, options, causes, OptionTail.pairs, OptionTail.causes]
  · simp [hempty, causes_scan, options, causes, OptionTail.pairs, OptionTail.causes, Dict.ofList]

end OptionList

/-! ## Options behind a keyword -/

/-- **The grammar of option lists.** An instruction that does not start with the keyword has no
options, and nothing is wrong with it. Otherwise what follows the keyword splits in one way into
complete pairs and a rest that does not begin with one. The options are those of the pairs and, if
there is a rest, of the rest, where a later one replaces an earlier one; and what is wrong is
reported pair by pair at the anchor of the tag, the rest last. -/
theorem readOptions_grammar (keyword text : List Char) (t : Tag) :
    (¬ keyword <+: Text.trim text →
      readOptions keyword text = ({}, []) ∧ t.reportAll (readOptions keyword text).2 = t) ∧
    ∀ rest, Text.trim text = keyword ++ rest →
      ∃ l : OptionList, l.spelling = Text.trim rest ∧
        (∀ s : OptionSegment, ¬ s.spelling <+: l.tail.spelling) ∧
        (∀ segments tail, segments.flatMap OptionSegment.spelling ++ tail = Text.trim rest →
          (∀ s : OptionSegment, ¬ s.spelling <+: tail) →
            segments = l.segments ∧ tail = l.tail.spelling) ∧
        (∀ l' : OptionList, l'.spelling = Text.trim rest → l' = l) ∧
        readOptions keyword text = (l.options, l.causes) ∧
        t.reportAll (readOptions keyword text).2 =
          { t with problems := t.problems ++ l.causes.map fun c => ⟨c, t.anchor?⟩ } := by
  constructor
  · intro hother
    have hnone : keyword.isPrefixOf? (Text.trim text) = none := by
      rw [Option.eq_none_iff_forall_ne_some]
      intro rest hsome
      exact hother ⟨rest, List.isPrefixOf?_eq_some_iff_append_eq.mp hsome⟩
    simp [readOptions, hnone, Tag.reportAll]
  · intro rest hrest
    have hspelling := OptionList.spelling_read (Text.trim rest)
    have hunique : ∀ l' : OptionList, l'.spelling = Text.trim rest →
        l' = .read (Text.trim rest) := by
      intro l' hl'
      rw [← hl', OptionList.read_spelling]
    have hread : readOptions keyword text = ((OptionList.read (Text.trim rest)).options,
        (OptionList.read (Text.trim rest)).causes) := by
      have hsome : keyword.isPrefixOf? (Text.trim text) = some rest :=
        List.isPrefixOf?_eq_some_iff_append_eq.mpr hrest.symm
      rw [readOptions, hsome]
      simp only [readOptionList]
      rw [OptionList.foldl_step_eq, OptionList.finish_scan hspelling]
    refine ⟨.read (Text.trim rest), hspelling, OptionTail.not_prefix _, ?_, hunique, hread, ?_⟩
    · intro segments tail hwhole htail
      obtain ⟨t, rfl⟩ := OptionTail.exists_of_not_prefix htail
      have hlist := hunique ⟨segments, t⟩ hwhole
      simp [← hlist]
    · rw [hread]
      rfl

/-- A pair with an escaped quote, one with a space in its key and a stray character before its
value, one that repeats a key, and one that breaks off behind a backslash. -/
def brokenOffOptions : List Char :=
  "file:\"a\\\"b\" le gend: - \"c\" file:\"d\" width:\"1\\".toList

theorem readOptions_grammar_brokenOff :
    ∃ l : OptionList, l.spelling = brokenOffOptions ∧ l.segments.length = 3 ∧
      (readOptions "m:image".toList ("m:image ".toList ++ brokenOffOptions)).1.entries =
        [("file", "d"), ("le gend", "c"), ("width", "1")] ∧
      l.causes = [.blankInKey 2 "le gend", .strayBeforeQuote "le gend", .unfinishedOption "width"] ∧
      readOptions "m:image".toList ("m:image ".toList ++ brokenOffOptions) =
        (l.options, l.causes) := by
  obtain ⟨l, hspelling, -, -, -, hread, -⟩ :=
    (readOptions_grammar "m:image".toList ("m:image ".toList ++ brokenOffOptions) {}).2
      (' ' :: brokenOffOptions) (by decide +kernel)
  have htrim : Text.trim (' ' :: brokenOffOptions) = brokenOffOptions := by decide +kernel
  rw [htrim] at hspelling
  refine ⟨l, hspelling, ?_, by decide +kernel, ?_, hread⟩
  · rw [← l.read_spelling, hspelling]
    decide +kernel
  · have hcauses : l.causes =
        (readOptions "m:image".toList ("m:image ".toList ++ brokenOffOptions)).2 := by rw [hread]
    rw [hcauses]
    decide +kernel

end DocTemplate
