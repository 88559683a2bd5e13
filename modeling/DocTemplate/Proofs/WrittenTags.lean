import DocTemplate.Parse.Header
import DocTemplate.Proofs.SourceTree
import Mathlib.Data.List.DropRight

/-!
# Reading back what a field says

A field that is written for a query, a repetition or a condition is understood as that. Its
instruction begins with the keyword it was written with; the blanks that were put between the parts
are trimmed away again; and the parts are those that were put together, even if a bar stands in an
expression or a query ends with a word that tells how to show it.

## Main statements

- `readQuery_written`, `readLoop_written`, `readCondition_written`: headers that are read back
-/

namespace DocTemplate

/-! ## Trimming -/

namespace Text

theorem trimRight_append_of_all {blanks : List Char} (h : blanks.all isBlank = true)
    (cs : List Char) : trimRight (cs ++ blanks) = trimRight cs := by
  have hreverse : ∀ c ∈ blanks.reverse, isBlank c = true := by simpa using h
  rw [trimRight, List.reverse_append, List.dropWhile_append_of_pos hreverse, trimRight]

/-- Nothing is trimmed from before a character that is not blank. -/
theorem trimRight_append_cons {c : Char} (hc : isBlank c = false) (cs ds : List Char) :
    trimRight (cs ++ c :: ds) = cs ++ c :: trimRight ds := by
  simp only [trimRight, List.reverse_append, List.reverse_cons, List.append_assoc,
    List.dropWhile_append]
  split
  next hblank =>
    have hnil : ds.reverse.dropWhile isBlank = [] := List.isEmpty_iff.mp hblank
    simp [hnil, hc]
  next => simp

/-- Trimming the end first makes no difference. -/
theorem trim_trimRight (cs : List Char) : trim (trimRight cs) = trim cs := by
  obtain ⟨blanks, hcs, hblanks⟩ := exists_eq_trimRight_append cs
  cases hall : (trimRight cs).all isBlank with
  | true =>
    -- Then everything is blank, and nothing is left on either side.
    have hwhole : cs.all isBlank = true := by rw [hcs, List.all_append, hall, hblanks]; rfl
    have hnone : ∀ {ds : List Char}, ds.all isBlank = true → trim ds = [] := by
      intro ds hds
      have htrim := trimLeft_append_of_all hds []
      rw [List.append_nil] at htrim
      rw [trim, htrim]
      rfl
    rw [hnone hall, hnone hwhole]
  | false =>
    have hleft : trimLeft cs = trimLeft (trimRight cs) ++ blanks := by
      conv_lhs => rw [hcs]
      exact trimLeft_append hall blanks
    rw [trim, trim, hleft, trimRight_append_of_all hblanks]

theorem trim_cons_blank (cs : List Char) : trim (' ' :: cs) = trim cs := rfl

theorem trim_concat_blank (cs : List Char) : trim (cs ++ [' ']) = trim cs := by
  rw [← trim_trimRight, trimRight_append_of_all (by decide), trim_trimRight]

end Text

/-! ## Keywords -/

/-- A word without blanks does not reach over one. -/
theorem Text.prefix_of_prefix_append_blank {word : List Char}
    (hword : word.all (!isBlank ·) = true) {cs ds : List Char} (h : word <+: cs ++ ' ' :: ds) :
    word <+: cs := by
  rcases List.prefix_or_prefix_of_prefix h (List.prefix_append cs (' ' :: ds)) with hinside | hover
  · exact hinside
  · obtain ⟨more, rfl⟩ := hover
    rw [List.prefix_append_right_inj] at h
    cases more with
    | nil => simp
    | cons c more =>
      have hc : c = ' ' := by simpa using (List.cons_prefix_cons.mp h).1
      simp [hc, isBlank] at hword

namespace Keyword

/-- What starts like a tag and like no particular one is a query. -/
theorem match?_eq_query {cs : List Char}
    (h : ∀ k : Keyword, k ≠ .query → ¬ k.spelling.toList <+: 'm' :: ':' :: cs) :
    match? ('m' :: ':' :: cs) = some .query := by
  have hquery : Keyword.query.spelling.toList.isPrefixOf ('m' :: ':' :: cs) = true := by
    simp [spelling]
  have hothers : (order.take 11).find? (fun k => k.spelling.toList.isPrefixOf ('m' :: ':' :: cs)) =
      none := by
    rw [List.find?_eq_none]
    intro k hk
    rw [List.isPrefixOf_iff_prefix]
    apply h k
    rintro rfl
    exact absurd hk (by decide)
  have horder : order = order.take 11 ++ [.query] := rfl
  rw [match?, horder, List.find?_append, hothers, Option.none_or]
  exact List.find?_cons_of_pos hquery

end Keyword

/-! ## Queries -/

theorem splitDisplay_suffix (cs : List Char) (display : Display) :
    splitDisplay (cs ++ display.suffix.toList) = (cs, display) := by
  cases display <;>
    simp [splitDisplay, Display.suffix, List.isSuffixOf?, List.isPrefixOf?]

theorem Text.trimRight_suffix (cs : List Char) (display : Display) :
    trimRight (cs ++ display.suffix.toList) = cs ++ display.suffix.toList := by
  cases display <;> simp [trimRight, Display.suffix, isBlank]

theorem Setting.compileFor_of_isValid {s : Setting} {source : String}
    (h : (s.compile source).isValid = true) (tag : Tag) (anchor : Option RunId) :
    s.compileFor tag anchor source = (some (s.compile source).expression, tag) := by
  simp only [Setting.compileFor, h, if_true]

namespace Source.Item

variable {s : Setting} {f : Field}

theorem Compiles.trim_eq {source : String} (h : Compiles s source) :
    Text.trim source.toList = source.toList := by
  have htext := congrArg String.toList h.1
  rwa [Text.trimmed, String.toList_ofList] at htext

theorem trim_query (source : String) (display : Display) :
    Text.trim ("m:" ++ source ++ display.suffix).toList =
      'm' :: ':' :: (source.toList ++ display.suffix.toList) := by
  have hleft : Text.trimLeft ("m:" ++ source ++ display.suffix).toList =
      'm' :: ':' :: source.toList ++ display.suffix.toList := by
    simp [Text.trimLeft, Text.isBlank]
  rw [Text.trim, hleft, Text.trimRight_suffix]
  rfl

theorem match?_query {source : String} (display : Display)
    (h : ∀ k : Keyword, k ≠ .query → ¬ k.spelling.toList <+: ("m:" ++ source).toList) :
    Keyword.match? (Text.trim ("m:" ++ source ++ display.suffix).toList) = some .query := by
  rw [trim_query]
  apply Keyword.match?_eq_query
  intro k hk hstarts
  -- No keyword goes on over the blank before the word at the end.
  have hblank : ∃ word, display.suffix.toList = ' ' :: word := by cases display <;> exact ⟨_, rfl⟩
  obtain ⟨word, hword⟩ := hblank
  have hprefix : k.spelling.toList <+: 'm' :: ':' :: source.toList ++ ' ' :: word := by
    rwa [hword] at hstarts
  apply h k hk
  simpa using Text.prefix_of_prefix_append_blank k.all_spelling_not_isBlank hprefix

/-- **A query is read back.** -/
theorem readQuery_written {source : String} {display : Display} (hsource : Compiles s source)
    (hf : f.instruction = Text.trim ("m:" ++ source ++ display.suffix).toList) :
    readQuery s f = .query (Tag.ofField f) (some (s.compile source).expression) display := by
  have hstrip : Keyword.query.strip f.instruction = source.toList ++ display.suffix.toList := by
    rw [hf, trim_query]
    rfl
  simp only [readQuery, hstrip, splitDisplay_suffix, hsource.trim_eq, String.ofList_toList,
    Setting.compileFor_of_isValid hsource.2]

/-! ## Conditions -/

/-- A keyword and an expression behind it, with the blanks that are left of those in between. -/
theorem trim_keyword (word source : List Char) {c : Char} (hhead : Text.isBlank c = false)
    {d : Char} (hlast : Text.isBlank d = false) :
    Text.trim (c :: word ++ d :: source) = c :: word ++ d :: Text.trimRight source := by
  have hleft : Text.trimLeft (c :: word ++ d :: source) = c :: word ++ d :: source := by
    simp [Text.trimLeft, hhead]
  rw [Text.trim, hleft, Text.trimRight_append_cons hlast]

/-- What is written for a condition: `m:if` or `m:elseif`. -/
theorem trim_condition (k : Keyword) (hk : k = .ifThen ∨ k = .elseIf) (condition : String) :
    Text.trim (k.spelling ++ " " ++ condition).toList =
      k.spelling.toList ++ Text.trimRight (' ' :: condition.toList) := by
  rcases hk with rfl | rfl
  · simpa [Keyword.spelling] using
      trim_keyword [':', 'i'] (' ' :: condition.toList) (c := 'm') (d := 'f') rfl rfl
  · simpa [Keyword.spelling] using
      trim_keyword [':', 'e', 'l', 's', 'e', 'i'] (' ' :: condition.toList) (c := 'm') (d := 'f')
        rfl rfl

theorem match?_condition (k : Keyword) (hk : k = .ifThen ∨ k = .elseIf) (condition : String) :
    Keyword.match? (Text.trim (k.spelling ++ " " ++ condition).toList) = some k := by
  rw [trim_condition k hk]
  rcases hk with rfl | rfl <;> rfl

/-- **A condition is read back.** -/
theorem readCondition_written {k : Keyword} (hk : k = .ifThen ∨ k = .elseIf) {condition : String}
    (hcondition : Compiles s condition)
    (hf : f.instruction = Text.trim (k.spelling ++ " " ++ condition).toList) :
    readCondition s f = (some (s.compile condition).expression, Tag.ofField f) := by
  have hkeyword : (if Keyword.ifThen.spelling.toList.isPrefixOf f.instruction then Keyword.ifThen
      else .elseIf) = k := by
    rw [hf, trim_condition k hk]
    rcases hk with rfl | rfl <;> simp [Keyword.spelling]
  have hstrip : k.strip f.instruction = Text.trimRight (' ' :: condition.toList) := by
    rw [hf, trim_condition k hk]
    rcases hk with rfl | rfl <;> simp [Keyword.strip, Keyword.spelling, List.isPrefixOf?]
  simp only [readCondition, hkeyword, hstrip, Text.trim_trimRight, Text.trim_cons_blank,
    hcondition.trim_eq, String.ofList_toList, Setting.compileFor_of_isValid hcondition.2]

/-! ## Repetitions -/

theorem trim_loop (iterator source : String) :
    Text.trim ("m:for " ++ iterator ++ " | " ++ source).toList =
      "m:for".toList ++ (' ' :: iterator.toList ++ [' ']) ++
        '|' :: Text.trimRight (' ' :: source.toList) := by
  simpa using trim_keyword (":for ".toList ++ iterator.toList ++ [' ']) (' ' :: source.toList)
    (c := 'm') (d := '|') rfl rfl

theorem match?_loop (iterator source : String) :
    Keyword.match? (Text.trim ("m:for " ++ iterator ++ " | " ++ source).toList) =
      some .forEach := by
  rw [trim_loop]
  rfl

theorem splitBar?_append {before : List Char} (h : '|' ∉ before) (after : List Char) :
    splitBar? (before ++ '|' :: after) = some (before, after) := by
  have hnot : ∀ c ∈ before, (decide (c ≠ '|')) = true := by
    intro c hc
    simp only [decide_eq_true_eq]
    rintro rfl
    exact h hc
  rw [splitBar?, List.dropWhile_append_of_pos hnot, List.takeWhile_append_of_pos hnot]
  simp

/-- **A repetition is read back.** -/
theorem readLoop_written {iterator source : String} (htrim : Text.trimmed iterator = iterator)
    (hname : iterator ≠ "") (hbar : '|' ∉ iterator.toList) (hsource : Compiles s source)
    (hnonempty : source ≠ "")
    (hf : f.instruction = Text.trim ("m:for " ++ iterator ++ " | " ++ source).toList) :
    readLoop s f = ⟨Tag.ofField f, some iterator, some (s.compile source).expression⟩ := by
  have hstrip : Keyword.forEach.strip f.instruction =
      (' ' :: iterator.toList ++ [' ']) ++ '|' :: Text.trimRight (' ' :: source.toList) := by
    rw [hf, trim_loop]
    simp [Keyword.strip, Keyword.spelling, List.isPrefixOf?]
  have hbefore : '|' ∉ ' ' :: iterator.toList ++ [' '] := by simpa using hbar
  have hnameTrim : Text.trim (' ' :: iterator.toList ++ [' ']) = iterator.toList := by
    have htext := congrArg String.toList htrim
    rw [Text.trimmed, String.toList_ofList] at htext
    rw [Text.trim_concat_blank, Text.trim_cons_blank, htext]
  have hnameNonempty : iterator.toList.isEmpty = false := by simpa using hname
  have hsourceNonempty : source.toList.isEmpty = false := by simpa using hnonempty
  simp only [readLoop, hstrip, splitBar?_append hbefore, hnameTrim, Text.trim_trimRight,
    Text.trim_cons_blank, hsource.trim_eq, hnameNonempty, hsourceNonempty, Bool.false_eq_true,
    if_false, String.ofList_toList, Setting.compileFor_of_isValid hsource.2]

end Source.Item

end DocTemplate
