import DocTemplate.Json.Printer
import DocTemplate.Json.Reader
import Mathlib.Data.List.TakeWhile

/-!
# Reading JSON back

A value that was written on one line is read as the same value. A lexeme is put into its place as
soon as it is complete, but a numeral or a word is complete only when something else follows; so
what is compared is where a reading goes on with the next character.

## Main statements

- `Settles`: a reading that goes on as if a value had just been put into its place
- `foldl_step_quoted`: a quoted text is one lexeme
- `numeral?_toDigits`: a number in decimal is that number
- `Plain.readsBack`, `parse?_compact`: plain values are read back
-/

namespace DocTemplate.Json

/-- A value without numerals other than natural numbers of 64 bits. -/
inductive Plain : Json → Prop where
  | null : Plain .null
  | bool (b : Bool) : Plain (.bool b)
  | nat {n : Nat} (h : n < UInt64.size) : Plain (.nat n)
  | string (s : String) : Plain (.string s)
  | array {items : List Json} (h : ∀ j ∈ items, Plain j) : Plain (.array items)
  | object {members : List (String × Json)} (h : ∀ m ∈ members, Plain m.2) : Plain (.object members)

/-! ## What is written -/

/-- The characters of a value on one line. -/
def spelling (j : Json) : List Char := j.compact.toList

/-- The characters of a text between quotes. -/
def quotedSpelling (s : String) : List Char :=
  '"' :: (s.toList.flatMap (fun c => (escapeChar c).toList) ++ ['"'])

/-- The characters of a member. -/
def memberSpelling (m : String × Json) : List Char :=
  quotedSpelling m.1 ++ ':' :: spelling m.2

theorem toList_quoted (s : String) : (quoted s).toList = quotedSpelling s := by
  have hfold : ∀ (cs : List Char) (acc : String),
      (cs.foldl (fun acc c => acc ++ escapeChar c) acc).toList =
        acc.toList ++ cs.flatMap (fun c => (escapeChar c).toList) := by
    intro cs
    induction cs with
    | nil => simp
    | cons c cs ih => intro acc; simp [ih]
  rw [quoted, String.foldl_eq_foldl_toList, String.toList_append, hfold]
  simp [quotedSpelling]

/-- Pieces with a comma before each but the first. -/
def listed (pieces : List (List Char)) : List Char := (pieces.flatMap (',' :: ·)).drop 1

mutual

/-- A value is written behind what is there already. -/
theorem toList_writeCompact (acc : String) :
    ∀ j : Json, (writeCompact acc j).toList = acc.toList ++ spelling j
  | .array items => by simp [spelling, compact, writeCompact, toList_writeItems]
  | .object members => by simp [spelling, compact, writeCompact, toList_writeMembers]
  | .null | .bool _ | .nat _ | .numeral _ | .string _ | .void => by
    simp [writeCompact, spelling, compact]

theorem toList_writeItems (acc : String) (first : Bool) :
    ∀ items : List Json, (writeItems acc first items).toList =
      acc.toList ++ ((items.map spelling).flatMap (',' :: ·)).drop first.toNat
  | [] => by simp [writeItems]
  | j :: items => by
    rw [writeItems, toList_writeItems, toList_writeCompact]
    cases first <;> simp

theorem toList_writeMembers (acc : String) (first : Bool) :
    ∀ members : List (String × Json), (writeMembers acc first members).toList =
      acc.toList ++ ((members.map memberSpelling).flatMap (',' :: ·)).drop first.toNat
  | [] => by simp [writeMembers]
  | m :: members => by
    rw [writeMembers, toList_writeMembers, toList_writeMember]
    cases first <;> simp

theorem toList_writeMember (acc : String) :
    ∀ m : String × Json, (writeMember acc m).toList = acc.toList ++ memberSpelling m
  | (key, j) => by
    rw [writeMember, toList_writeCompact]
    simp [toList_quoted, memberSpelling]

end

theorem spelling_array (items : List Json) :
    spelling (.array items) = '[' :: (listed (items.map spelling) ++ [']']) := by
  simp [spelling, compact, writeCompact, toList_writeItems, listed]

theorem spelling_object (members : List (String × Json)) :
    spelling (.object members) =
      '\x7b' :: (listed (members.map memberSpelling) ++ ['\x7d']) := by
  simp [spelling, compact, writeCompact, toList_writeMembers, listed]

/-! ## Strings -/

/-- A character is written as an escape of one letter, as an escape of four digits, or as itself. -/
theorem escapeChar_cases (c : Char) :
    (∃ e, e ≠ 'u' ∧ shortEscape? e = some c ∧ (escapeChar c).toList = ['\\', e]) ∨
    (c.toNat < 32 ∧ (escapeChar c).toList =
      ['\\', 'u', '0', '0', hexDigit (c.toNat / 16), hexDigit (c.toNat % 16)]) ∨
    (c ≠ '"' ∧ c ≠ '\\' ∧ 32 ≤ c.toNat ∧ (escapeChar c).toList = [c]) := by
  have hcode : c = Char.ofNat c.toNat := (Char.ofNat_toNat c).symm
  unfold escapeChar
  split
  · next h => exact .inl ⟨'"', by decide, by rw [h]; rfl, by simp⟩
  split
  · next h => exact .inl ⟨'\\', by decide, by rw [h]; rfl, by simp⟩
  split
  · next h => exact .inl ⟨'n', by decide, by rw [h]; rfl, by simp⟩
  split
  · next h => exact .inl ⟨'r', by decide, by rw [h]; rfl, by simp⟩
  split
  · next h => exact .inl ⟨'t', by decide, by rw [h]; rfl, by simp⟩
  split
  · next h => exact .inl ⟨'b', by decide, by rw [hcode, h]; rfl, by simp⟩
  split
  · next h => exact .inl ⟨'f', by decide, by rw [hcode, h]; rfl, by simp⟩
  split
  · next h => exact .inr (.inl ⟨h, by simp⟩)
  · next hquote hbackslash _ _ _ _ _ h =>
    exact .inr (.inr ⟨hquote, hbackslash, Nat.le_of_not_lt h, by simp⟩)

namespace State

/-- A character of a string is read back, however it is written. -/
theorem foldl_step_escapeChar (a : Assembly) (content : String) (c : Char) :
    (escapeChar c).toList.foldl step (.reading a (.inString true none content)) =
      .reading a (.inString true none (content.push c)) := by
  obtain ⟨e, he, hshort, htext⟩ | ⟨hcontrol, htext⟩ | ⟨hquote, hbackslash, hcontrol, htext⟩ :=
    escapeChar_cases c
  · simp [htext, step, he, hshort]
  · -- The four digits stand for a control character, which is no half of a surrogate pair.
    have hdigit : ∀ n < 16, Numeral.hexValue? (hexDigit n) = some n := by decide
    have hzero : Numeral.hexValue? '0' = some 0 := by decide
    have hwhole : 16 * (c.toNat / 16) + c.toNat % 16 = c.toNat := by omega
    have hcode : addCode true none content c.toNat =
        .inString true none (content.push (Char.ofNat c.toNat)) := by
      simp [addCode, show ¬ 55296 ≤ c.toNat by omega, show ¬ 56320 ≤ c.toNat by omega]
    rw [Char.ofNat_toNat] at hcode
    simp [htext, step, hdigit (c.toNat / 16) (by omega), hdigit (c.toNat % 16) (by omega), hzero,
      hwhole, hcode]
  · simp [htext, step, hquote, hbackslash, hcontrol]

/-- The inside of a string is read back. -/
theorem foldl_step_escaped (a : Assembly) (content : String) (cs : List Char) :
    (cs.flatMap (fun c => (escapeChar c).toList)).foldl step
        (.reading a (.inString true none content)) =
      .reading a (.inString true none (content ++ String.ofList cs)) := by
  induction cs generalizing content with
  | nil => simp
  | cons c cs ih =>
    rw [List.flatMap_cons, List.foldl_append, foldl_step_escapeChar, ih]
    congr 2
    rw [← String.toList_inj]
    simp

/-- **A quoted text is one lexeme.** -/
theorem foldl_step_quoted (a : Assembly) (s : String) :
    (quotedSpelling s).foldl step (.reading a .between) = place a (.text (some s)) := by
  have hopen : step (.reading a .between) '"' = .reading a (.inString true none "") := rfl
  have hclose : step (.reading a (.inString true none s)) '"' = place a (.text (some s)) := rfl
  rw [quotedSpelling, List.foldl_cons, hopen, List.foldl_append, foldl_step_escaped,
    String.ofList_toList, String.empty_append, List.foldl_cons, hclose, List.foldl_nil]

end State

/-! ## Numbers -/

/-- A number is written without leading zeros. -/
theorem head?_toDigits {n : Nat} (h : 0 < n) : (Nat.toDigits 10 n).head? ≠ some '0' := by
  induction n using Nat.strongRecOn with
  | ind n ih =>
    by_cases hsmall : n < 10
    · have hdigit : ∀ n < 10, 0 < n → n.digitChar ≠ '0' := by decide
      simpa [Nat.toDigits_of_lt_base hsmall] using hdigit n hsmall h
    · rw [Nat.toDigits_of_base_le (by decide) (Nat.le_of_not_lt hsmall), List.head?_append]
      have hrest := ih (n / 10) (by omega) (by omega)
      cases hhead : (Nat.toDigits 10 (n / 10)).head? with
      | none => simp [Nat.toDigits_ne_nil] at hhead
      | some c => simpa [hhead] using hrest

/-- Digits that stand for a number of 64 bits are all taken in. -/
theorem appendFitting_of_lt {ds : List Char} (hdigits : ∀ c ∈ ds, c.isDigit = true) (init : Nat)
    (h : Nat.ofDigitChars 10 ds init < UInt64.size) :
    appendFitting init ds = (Nat.ofDigitChars 10 ds init, 0) := by
  induction ds generalizing init with
  | nil => simp [appendFitting]
  | cons c ds ih =>
    have hvalue : Numeral.digitValue c = c.toNat - '0'.toNat := by
      simp [Numeral.digitValue, Numeral.hexValue?, hdigits c]
    rw [Nat.ofDigitChars_cons, ← hvalue] at h ⊢
    -- What has been taken in so far is no more than the whole.
    have hsofar : 10 * init + Numeral.digitValue c < UInt64.size := by
      rw [Nat.ofDigitChars_eq_ofDigitChars_zero] at h
      have hpower : 0 < 10 ^ ds.length := Nat.pow_pos (by decide)
      have hgrows := Nat.le_mul_of_pos_left (10 * init + Numeral.digitValue c) hpower
      omega
    rw [appendFitting]
    simp only [hsofar, if_true]
    exact ih (fun d hd => hdigits d (List.mem_cons_of_mem c hd)) _ h

/-- Digits without a leading zero are a numeral of digits only. -/
theorem numeralParts?_of_digits {ds : List Char} (hdigits : ∀ c ∈ ds, c.isDigit = true)
    (hne : ds ≠ []) (hzero : 1 < ds.length → ds.head? ≠ some '0') :
    numeralParts? ds = some ⟨false, ds, none, none⟩ := by
  have hsign : splitSign ds = (false, ds) := by
    unfold splitSign
    split
    · next cs => exact absurd (hdigits '-' List.mem_cons_self) (by decide)
    · rfl
  have hwhole : ds.takeWhile Char.isDigit = ds := List.takeWhile_eq_self_iff.mpr hdigits
  have hrest : ds.dropWhile Char.isDigit = [] := List.dropWhile_eq_nil_iff.mpr hdigits
  simpa [numeralParts?, hsign, hwhole, hrest, splitFraction, splitExponent, hne] using hzero

/-- **A number in decimal is read as that number.** -/
theorem numeral?_toDigits {n : Nat} (h : n < UInt64.size) :
    numeral? (Nat.toDigits 10 n) = some (.nat n) := by
  have hdigits : ∀ c ∈ Nat.toDigits 10 n, c.isDigit = true :=
    fun c hc => Nat.isDigit_of_mem_toDigits (by decide) (by decide) hc
  have hzero : 1 < (Nat.toDigits 10 n).length → (Nat.toDigits 10 n).head? ≠ some '0' := by
    intro hlength
    apply head?_toDigits
    by_contra hn
    simp [Nat.eq_zero_of_not_pos hn] at hlength
  have hparts := numeralParts?_of_digits hdigits Nat.toDigits_ne_nil hzero
  have hvalue := Nat.ofDigitChars_ten_toDigits (n := n)
  rw [numeral?, hparts]
  simp [NumeralParts.nat?, appendFitting_of_lt hdigits 0 (hvalue.symm ▸ h), hvalue]

/-! ## Values -/

/-- A character that ends a numeral or a word. -/
def isDelimiter (c : Char) : Bool := !isNumeralChar c && !c.isAlpha

/-- A reading goes on as if all lexemes so far had been put into their places. -/
def State.Settles (s : State) (a : Assembly) : Prop :=
  ∀ c, isDelimiter c = true → s.step c = State.begin a c

/-- Wherever a value may stand, its text puts it there. -/
def ReadsBack (j : Json) : Prop :=
  ∀ stack orClose, (j.spelling.foldl State.step (.reading ⟨stack, .value orClose⟩ .between)).Settles
    (.deliver stack j)

namespace State

theorem settles_between (a : Assembly) : (State.reading a .between).Settles a := fun _ _ => rfl

/-- A numeral is put into its place by the character behind it. -/
theorem settles_numeral {a a' : Assembly} {chars : List Char} {j : Json}
    (h : numeral? chars.reverse = some j) (ha : a.step (.atom j) = some a') :
    (State.reading a (.inNumeral chars)).Settles a' := by
  intro c hc
  have hchar : isNumeralChar c = false := by simp_all [isDelimiter]
  simp [step, hchar, beginAfter, h, ha]

/-- So is a word. -/
theorem settles_word {a a' : Assembly} {chars : List Char} {j : Json}
    (h : word? chars.reverse = some j) (ha : a.step (.atom j) = some a') :
    (State.reading a (.inWord chars)).Settles a' := by
  intro c hc
  have hchar : c.isAlpha = false := by simp_all [isDelimiter]
  simp [step, hchar, beginAfter, h, ha]

end State

theorem step_atom (stack : List Open) (orClose : Bool) (j : Json) :
    Assembly.step ⟨stack, .value orClose⟩ (.atom j) = some (.deliver stack j) := rfl

/-- The characters of a numeral are collected. -/
theorem foldl_step_numeral (a : Assembly) {cs : List Char} (h : ∀ c ∈ cs, c.isDigit = true)
    (chars : List Char) :
    cs.foldl State.step (.reading a (.inNumeral chars)) =
      .reading a (.inNumeral (cs.reverse ++ chars)) := by
  induction cs generalizing chars with
  | nil => rfl
  | cons c cs ih =>
    have hstep : State.step (.reading a (.inNumeral chars)) c =
        .reading a (.inNumeral (c :: chars)) := by
      simp [State.step, isNumeralChar, h c]
    rw [List.foldl_cons, hstep, ih fun d hd => h d (List.mem_cons_of_mem c hd)]
    simp

/-- A digit starts a numeral. -/
theorem begin_digit (a : Assembly) {c : Char} (h : c.isDigit = true) :
    State.begin a c = .reading a (.inNumeral [c]) := by
  have hother : ∀ d : Char, d.isDigit = false → c ≠ d := by
    rintro d hd rfl
    rw [h] at hd
    cases hd
  simp [State.begin, isSpace, isNumeralChar, h, hother ' ' rfl, hother '\n' rfl, hother '\t' rfl,
    hother '\r' rfl, hother '"' rfl, hother 'e' rfl, hother 'E' rfl]

theorem readsBack_nat {n : Nat} (h : n < UInt64.size) : ReadsBack (.nat n) := by
  intro stack orClose
  have htext : spelling (.nat n) = Nat.toDigits 10 n := by
    simp [spelling, compact, writeCompact, scalarText]
  have hdigits : ∀ c ∈ Nat.toDigits 10 n, c.isDigit = true :=
    fun c hc => Nat.isDigit_of_mem_toDigits (by decide) (by decide) hc
  -- The first digit starts a numeral and the others are collected behind it.
  obtain ⟨c, cs, hcs⟩ := List.exists_cons_of_ne_nil (Nat.toDigits_ne_nil (n := n) (b := 10))
  rw [hcs] at hdigits
  have hbegin : State.step (.reading ⟨stack, .value orClose⟩ .between) c =
      .reading ⟨stack, .value orClose⟩ (.inNumeral [c]) :=
    begin_digit _ (hdigits c List.mem_cons_self)
  rw [htext, hcs, List.foldl_cons, hbegin,
    foldl_step_numeral _ fun d hd => hdigits d (List.mem_cons_of_mem c hd)]
  apply State.settles_numeral (j := .nat n)
  · rw [List.reverse_append, List.reverse_reverse, List.reverse_singleton, List.singleton_append,
      ← hcs, numeral?_toDigits h]
  · exact step_atom stack orClose (.nat n)

theorem readsBack_string (s : String) : ReadsBack (.string s) := by
  intro stack orClose
  have htext : spelling (.string s) = quotedSpelling s := by
    simp [spelling, compact, writeCompact, scalarText, toList_quoted]
  rw [htext, State.foldl_step_quoted]
  exact State.settles_between _

theorem readsBack_word {j : Json} {w : List Char} (htext : spelling j = w)
    (hletters : ∀ a, w.foldl State.step (.reading a .between) = .reading a (.inWord w.reverse))
    (hword : word? w = some j) : ReadsBack j := by
  intro stack orClose
  rw [htext, hletters]
  apply State.settles_word (j := j)
  · rw [List.reverse_reverse, hword]
  · exact step_atom stack orClose j

/-! ## Arrays and objects -/

/-! Items and members are listed in the same way: `expect` is where a reading expects the next part,
and `after` is where it stands when some parts have been put into their places. -/

section Listed

variable {α : Type} {part : α → List Char} (expect : Bool → List α → Assembly)
  (after : List α → Assembly) {parts : List α}
  (hpart : ∀ a ∈ parts, ∀ orClose done,
    ((part a).foldl State.step (.reading (expect orClose done) .between)).Settles
      (after (a :: done)))
  (hcomma : ∀ done, State.begin (after done) ',' = .reading (expect false done) .between)

include hpart hcomma

/-- The parts behind the first one, each with its comma. -/
theorem foldl_step_rest {s : State} {done : List α} (hs : s.Settles (after done)) :
    (((parts.map part).flatMap (',' :: ·)).foldl State.step s).Settles
      (after (parts.reverse ++ done)) := by
  induction parts generalizing s done with
  | nil => exact hs
  | cons a parts ih =>
    -- The comma settles the part before it, whatever kind of lexeme that ended with.
    have hnext : s.step ',' = .reading (expect false done) .between := by
      rw [hs ',' rfl, hcomma]
    have hrest := ih (fun b hb => hpart b (List.mem_cons_of_mem a hb))
      (hpart a List.mem_cons_self false done)
    simpa [hnext] using hrest

/-- All parts, and the bracket behind them. -/
theorem foldl_step_listed (hparts : parts ≠ []) {close : Char} (hclose : isDelimiter close = true) :
    (listed (parts.map part) ++ [close]).foldl State.step (.reading (expect true []) .between) =
      State.begin (after parts.reverse) close := by
  obtain ⟨a, rest, rfl⟩ := List.exists_cons_of_ne_nil hparts
  have hall := foldl_step_rest expect after
    (fun b hb => hpart b (List.mem_cons_of_mem a hb)) hcomma (hpart a List.mem_cons_self true [])
  have hend := hall close hclose
  simpa [listed] using hend

end Listed

theorem readsBack_array {items : List Json} (h : ∀ j ∈ items, ReadsBack j) :
    ReadsBack (.array items) := by
  intro stack orClose
  have hopen : State.step (.reading ⟨stack, .value orClose⟩ .between) '[' =
      .reading ⟨.array [] :: stack, .value true⟩ .between := rfl
  have hclose : ∀ done, State.begin ⟨.array done :: stack, .separator⟩ ']' =
      .reading (.deliver stack (.array done.reverse)) .between := fun _ => rfl
  rw [spelling_array, List.foldl_cons, hopen]
  cases items with
  | nil => exact State.settles_between _
  | cons j items =>
    rw [foldl_step_listed (fun orClose done => ⟨.array done :: stack, .value orClose⟩)
      (fun done => ⟨.array done :: stack, .separator⟩)
      (fun j hj orClose done => h j hj (.array done :: stack) orClose) (fun _ => rfl)
      (List.cons_ne_nil j items) rfl, hclose, List.reverse_reverse]
    exact State.settles_between _

/-- A member: its key, a colon and its value. -/
theorem foldl_step_member {m : String × Json} (h : ReadsBack m.2) (stack : List Open)
    (orClose : Bool) (done : List (String × Json)) :
    ((memberSpelling m).foldl State.step
      (.reading ⟨.object true done :: stack, .key orClose⟩ .between)).Settles
        ⟨.object true (m :: done) :: stack, .separator⟩ := by
  have hkey : State.place ⟨.object true done :: stack, .key orClose⟩ (.text (some m.1)) =
      .reading ⟨.member true done (some m.1) :: stack, .colon⟩ .between := rfl
  have hcolon : State.step (.reading ⟨.member true done (some m.1) :: stack, .colon⟩ .between) ':' =
      .reading ⟨.member true done (some m.1) :: stack, .value false⟩ .between := rfl
  rw [memberSpelling, List.foldl_append, State.foldl_step_quoted, hkey, List.foldl_cons, hcolon]
  exact h (.member true done (some m.1) :: stack) false

theorem readsBack_object {members : List (String × Json)} (h : ∀ m ∈ members, ReadsBack m.2) :
    ReadsBack (.object members) := by
  intro stack orClose
  have hopen : State.step (.reading ⟨stack, .value orClose⟩ .between) '\x7b' =
      .reading ⟨.object true [] :: stack, .key true⟩ .between := rfl
  have hclose : ∀ done, State.begin ⟨.object true done :: stack, .separator⟩ '\x7d' =
      .reading (.deliver stack (.object done.reverse)) .between := fun _ => rfl
  rw [spelling_object, List.foldl_cons, hopen]
  cases members with
  | nil => exact State.settles_between _
  | cons m members =>
    rw [foldl_step_listed (fun orClose done => ⟨.object true done :: stack, .key orClose⟩)
      (fun done => ⟨.object true done :: stack, .separator⟩)
      (fun m hm => foldl_step_member (h m hm) stack) (fun _ => rfl)
      (List.cons_ne_nil m members) rfl, hclose, List.reverse_reverse]
    exact State.settles_between _

/-! ## Whole texts -/

theorem Plain.readsBack {j : Json} (h : j.Plain) : ReadsBack j := by
  induction h with
  | null =>
    have htext : spelling .null = ['n', 'u', 'l', 'l'] := by
      simp [spelling, compact, writeCompact, scalarText]
    exact readsBack_word htext (fun _ => rfl) rfl
  | bool b =>
    cases b with
    | false =>
      have htext : spelling (.bool false) = ['f', 'a', 'l', 's', 'e'] := by
        simp [spelling, compact, writeCompact, scalarText]
      exact readsBack_word htext (fun _ => rfl) rfl
    | true =>
      have htext : spelling (.bool true) = ['t', 'r', 'u', 'e'] := by
        simp [spelling, compact, writeCompact, scalarText]
      exact readsBack_word htext (fun _ => rfl) rfl
  | nat h => exact readsBack_nat h
  | string s => exact readsBack_string s
  | array _ ih => exact readsBack_array ih
  | object _ ih => exact readsBack_object ih

/-- **A plain value that was written on one line is read back.** -/
theorem parse?_compact {j : Json} (h : j.Plain) : parse? j.compact = some j := by
  -- A text ends as if a blank followed, which settles a value at the end.
  have hread := h.readsBack [] false ' ' rfl
  rw [parse?_eq_foldl, ← spelling, State.result?, hread]
  rfl

end DocTemplate.Json
