import CayenChat.App.Timeline
import CayenChat.Wire.Text

/-! # Text for the operating system

Titles and bodies of dialogs and notifications are made safe in one pass over the plain characters.
Formatting codes are also given by a grammar, and the pass is shown to be four steps done one after
the other.
-/

namespace CayenChat.Text
open App

def osTitleLimit : ℕ := 200

def osBodyLimit : ℕ := 2000

def osChar (multiline : Bool) (ch : Char) : Option Char :=
  if ch = '\n' ∧ multiline then some '\n'
  else if ch = '\n' ∨ ch = '\t' ∨ ch = '\u2028' ∨ ch = '\u2029' then some ' '
  else if isControl ch then none
  else if isBidiControl ch then some '\u200B'
  else some ch

def cutText (limit : ℕ) (plain : List Char) : List Char :=
  match plain[limit]? with
  | some _ => plain.take (limit - 1) ++ ['…']
  | none => plain

def osText (text : String) (multiline : Bool) (limit : ℕ) : String :=
  String.ofList (cutText limit ((plainChars text.toList).filterMap (osChar multiline)))

def osTitle (text : String) : String := osText text false osTitleLimit

def osBody (text : String) : String := osText text true osBodyLimit

/-! ## The grammar of formatting codes -/

/-- At most two digits, as many as there are. -/
structure TakesDigits (taken rest : List Char) : Prop where
  digits : ∀ c ∈ taken, c.isDigit = true
  short : taken.length ≤ 2
  most : taken.length < 2 → ∀ c ∈ rest.head?, c.isDigit = false

/-- The digits a color takes; a background only where a comma and a digit follow. -/
inductive ColorDigits : List Char → List Char → Prop
  | plain {fore rest : List Char} (taken : TakesDigits fore rest)
      (single : fore ≠ [] → ∀ c more, rest = ',' :: c :: more → c.isDigit = false) :
      ColorDigits fore rest
  | background {fore back rest : List Char} (taken : TakesDigits fore (',' :: (back ++ rest)))
      (some : fore ≠ []) (second : TakesDigits back rest) (any : back ≠ []) :
      ColorDigits (fore ++ ',' :: back) rest

/-- A text and what is left of it without formatting codes. -/
inductive Stripped : List Char → List Char → Prop
  | nil : Stripped [] []
  | color {c : Char} {digits rest plain : List Char} (color : c.toNat = 3)
      (taken : ColorDigits digits rest) (stripped : Stripped rest plain) :
      Stripped (c :: (digits ++ rest)) plain
  | code {c : Char} {rest plain : List Char} (code : isFormattingCode c = true)
      (other : c.toNat ≠ 3) (stripped : Stripped rest plain) : Stripped (c :: rest) plain
  | char {c : Char} {rest plain : List Char} (kept : isFormattingCode c = false)
      (stripped : Stripped rest plain) : Stripped (c :: rest) (c :: plain)

variable {taken taken' rest rest' text plain cs : List Char} {c d : Char} {multiline : Bool}
  {limit : ℕ}

theorem isFormattingCode_of_color (h : c.toNat = 3) : isFormattingCode c = true := by
  simp [isFormattingCode, h]

theorem skipDigits_of_takes (h : TakesDigits taken rest) : skipDigits (taken ++ rest) = rest := by
  have hrun : min 2 ((taken ++ rest).takeWhile Char.isDigit).length = taken.length := by
    rw [List.takeWhile_append_of_pos h.digits, List.length_append]
    by_cases hs : taken.length < 2
    · have hnone : rest.takeWhile Char.isDigit = [] := by
        cases rest with
        | nil => rfl
        | cons c rest => simpa using h.most hs c rfl
      rw [hnone, List.length_nil]
      omega
    · have := h.short
      omega
  rw [skipDigits, hrun, List.drop_left]

theorem exists_takes (cs : List Char) : ∃ taken,
    TakesDigits taken (skipDigits cs) ∧ cs = taken ++ skipDigits cs := by
  cases cs with
  | nil => exact ⟨[], ⟨by simp, by simp, by simp [skipDigits]⟩, rfl⟩
  | cons c cs =>
    cases hc : c.isDigit with
    | false =>
      have hskip : skipDigits (c :: cs) = c :: cs := by simp [skipDigits, hc]
      rw [hskip]
      exact ⟨[], ⟨by simp, by simp, by simp [hc]⟩, rfl⟩
    | true =>
      cases cs with
      | nil =>
        have hskip : skipDigits [c] = [] := by simp [skipDigits, hc]
        rw [hskip]
        exact ⟨[c], ⟨by simp [hc], by simp, by simp⟩, rfl⟩
      | cons d cs =>
        cases hd : d.isDigit with
        | false =>
          have hskip : skipDigits (c :: d :: cs) = d :: cs := by simp [skipDigits, hc, hd]
          rw [hskip]
          exact ⟨[c], ⟨by simp [hc], by simp, by simp [hd]⟩, rfl⟩
        | true =>
          have hskip : skipDigits (c :: d :: cs) = cs := by simp [skipDigits, hc, hd]
          rw [hskip]
          exact ⟨[c, d], ⟨by simp [hc, hd], by simp, by simp⟩, rfl⟩

theorem skipColor_of_digits (h : ColorDigits taken rest) : skipColor (taken ++ rest) = rest := by
  cases h with
  | plain htaken hsingle =>
    unfold skipColor
    dsimp only
    rw [skipDigits_of_takes htaken]
    split_ifs with hlen
    · rfl
    · have hne : taken ≠ [] := by
        rintro rfl
        exact hlen rfl
      split
      · rename_i d more
        rw [if_neg (by simpa using hsingle hne d more rfl)]
      · rfl
  | @background fore back rest htaken hsome hsecond hany =>
    obtain ⟨d, more, rfl⟩ := List.exists_cons_of_ne_nil hany
    have hd : d.isDigit = true := hsecond.digits d List.mem_cons_self
    have hskip := skipDigits_of_takes hsecond
    unfold skipColor
    dsimp only
    rw [List.append_assoc, List.cons_append, skipDigits_of_takes htaken, if_neg]
    · simpa [hd] using hskip
    · have hpos := List.length_pos_iff.mpr hsome
      simp only [List.length_append, List.length_cons]
      omega

theorem exists_digits (cs : List Char) : ∃ taken,
    ColorDigits taken (skipColor cs) ∧ cs = taken ++ skipColor cs := by
  obtain ⟨fore, hfore, hcs⟩ := exists_takes cs
  by_cases hb : ∃ d more, skipDigits cs = ',' :: d :: more ∧ d.isDigit = true ∧ fore ≠ []
  · obtain ⟨d, more, hskip, hd, hsome⟩ := hb
    obtain ⟨back, hback, hmore⟩ := exists_takes (d :: more)
    have hany : back ≠ [] := by
      rintro rfl
      rw [List.nil_append] at hmore
      have := hback.most (by simp) d (by rw [← hmore]; rfl)
      rw [hd] at this
      exact Bool.false_ne_true this.symm
    have hall : ColorDigits (fore ++ ',' :: back) (skipDigits (d :: more)) := by
      refine .background ?_ hsome hback hany
      rw [← hmore, ← hskip]
      exact hfore
    have heq : cs = fore ++ ',' :: back ++ skipDigits (d :: more) := by
      rw [List.append_assoc, List.cons_append, ← hmore, ← hskip]
      exact hcs
    have hcolor : skipColor cs = skipDigits (d :: more) := by
      conv_lhs => rw [heq]
      exact skipColor_of_digits hall
    exact ⟨_, hcolor ▸ hall, hcolor ▸ heq⟩
  · have hall : ColorDigits fore (skipDigits cs) := by
      refine .plain hfore ?_
      intro hne c more hrest
      by_contra hc
      exact hb ⟨c, more, hrest, by simpa using hc, hne⟩
    have hcolor : skipColor cs = skipDigits cs := by
      conv_lhs => rw [hcs]
      exact skipColor_of_digits hall
    exact ⟨fore, hcolor ▸ hall, hcolor ▸ hcs⟩

theorem stripped_iff : Stripped text plain ↔ plain = plainChars text := by
  constructor
  · intro h
    induction h with
    | nil => simp [plainChars]
    | color hc htaken _ ih => rw [plainChars, if_pos hc, skipColor_of_digits htaken, ih]
    | code hcode hother _ ih => rw [plainChars, if_neg hother, if_pos hcode, ih]
    | @char c _ _ hkept _ ih =>
      have hother : c.toNat ≠ 3 := by
        intro hc
        rw [isFormattingCode_of_color hc] at hkept
        exact Bool.false_ne_true hkept.symm
      rw [plainChars, if_neg hother, if_neg (by simp [hkept]), ih]
  · rintro rfl
    induction text using plainChars.induct with
    | case1 => simpa [plainChars] using Stripped.nil
    | case2 c cs hc ih =>
      obtain ⟨taken, htaken, hcs⟩ := exists_digits cs
      rw [plainChars, if_pos hc]
      conv_lhs => rw [hcs]
      exact .color hc htaken ih
    | case3 c cs hother hcode ih =>
      rw [plainChars, if_neg hother, if_pos hcode]
      exact .code hcode hother ih
    | case4 c cs hother hcode ih =>
      rw [plainChars, if_neg hother, if_neg hcode]
      exact .char (by simpa using hcode) ih

/-! ## The steps -/

def handleControl (multiline : Bool) (ch : Char) : Option Char :=
  if ch = '\n' ∧ multiline then some '\n'
  else if ch = '\n' ∨ ch = '\t' ∨ ch = '\u2028' ∨ ch = '\u2029' then some ' '
  else if isControl ch then none
  else some ch

def osSteps (text : String) (multiline : Bool) (limit : ℕ) : String :=
  let neutral := neutralizeBidi text
  let plain := stripFormatting neutral
  let clean := plain.toList.filterMap (handleControl multiline)
  String.ofList (cutText limit clean)

/-! ## Bidirectional controls and formatting codes -/

def neutralChar (c : Char) : Char := if isBidiControl c then Char.ofNat 0x200B else c

theorem neutralChar_of_lt (h : c.toNat < 128) : neutralChar c = c := by
  refine if_neg ?_
  simp only [isBidiControl, Bool.or_eq_true, Bool.and_eq_true, decide_eq_true_eq]
  omega

theorem isBidiControl_neutralChar (c : Char) : isBidiControl (neutralChar c) = false := by
  unfold neutralChar
  split_ifs with h
  · decide
  · simpa using h

theorem lt_of_isFormattingCode (h : isFormattingCode c = true) : c.toNat < 32 := by
  simp only [isFormattingCode, List.contains_eq_mem, List.mem_cons, List.not_mem_nil, or_false,
    decide_eq_true_eq] at h
  omega

theorem lt_of_isDigit (h : c.isDigit = true) : c.toNat < 128 := by
  simp only [Char.isDigit, Bool.and_eq_true, decide_eq_true_eq, UInt32.le_iff_toNat_le] at h
  exact lt_of_le_of_lt h.2 (by decide)

theorem neutralChar_iff {p : Char → Bool} (hp : ∀ c, p c = true → c.toNat < 128) (c : Char) :
    p (neutralChar c) = p c := by
  unfold neutralChar
  split_ifs with hb
  · have hc : p c = false := by
      rw [Bool.eq_false_iff]
      intro h
      have := neutralChar_of_lt (hp c h)
      have hn := isBidiControl_neutralChar c
      rw [this, hb] at hn
      exact Bool.false_ne_true hn.symm
    rw [hc, Bool.eq_false_iff]
    intro h
    exact absurd (hp _ h) (by decide)
  · rfl

@[simp] theorem isDigit_neutralChar (c : Char) : (neutralChar c).isDigit = c.isDigit :=
  neutralChar_iff (fun _ => lt_of_isDigit) c

@[simp] theorem isFormattingCode_neutralChar (c : Char) :
    isFormattingCode (neutralChar c) = isFormattingCode c :=
  neutralChar_iff (fun _ h => (lt_of_isFormattingCode h).trans (by decide)) c

theorem neutralChar_eq_iff (hd : d.toNat < 128) : neutralChar c = d ↔ c = d := by
  have h := neutralChar_iff (p := (· == d)) (by
    intro e he
    rw [beq_iff_eq] at he
    rwa [he]) c
  rw [Bool.eq_iff_iff, beq_iff_eq, beq_iff_eq] at h
  exact h

theorem toNat_neutralChar_eq_iff : (neutralChar c).toNat = 3 ↔ c.toNat = 3 := by
  have h := neutralChar_iff (p := fun e => e.toNat == 3) (by
    intro e he
    rw [beq_iff_eq] at he
    omega) c
  rw [Bool.eq_iff_iff, beq_iff_eq, beq_iff_eq] at h
  exact h

theorem TakesDigits.map (h : TakesDigits taken rest) :
    TakesDigits (taken.map neutralChar) (rest.map neutralChar) where
  digits := by simpa using h.digits
  short := by simpa using h.short
  most := by
    intro hs c hc
    rw [List.head?_map, Option.mem_map] at hc
    obtain ⟨d, hd, rfl⟩ := hc
    rw [isDigit_neutralChar]
    exact h.most (by simpa using hs) d hd

theorem ColorDigits.map (h : ColorDigits taken rest) :
    ColorDigits (taken.map neutralChar) (rest.map neutralChar) := by
  have hcomma : neutralChar ',' = ',' := neutralChar_of_lt (by decide)
  cases h with
  | plain htaken hsingle =>
    refine .plain htaken.map ?_
    intro hne c more hrest
    obtain ⟨a, rest, rfl, ha, htail⟩ := List.map_eq_cons_iff.mp hrest
    obtain ⟨d, more, rfl, rfl, rfl⟩ := List.map_eq_cons_iff.mp htail
    rw [isDigit_neutralChar]
    rw [neutralChar_eq_iff (by decide)] at ha
    exact hsingle (by simpa using hne) d more (by rw [ha])
  | background htaken hsome hsecond hany =>
    have hmapped := htaken.map
    simp only [List.map_append, List.map_cons, hcomma] at hmapped ⊢
    exact .background hmapped (by simpa using hsome) hsecond.map (by simpa using hany)

theorem Stripped.map (h : Stripped text plain) :
    Stripped (text.map neutralChar) (plain.map neutralChar) := by
  induction h with
  | nil => exact .nil
  | color hc htaken _ ih =>
    rw [List.map_cons, List.map_append]
    exact .color (toNat_neutralChar_eq_iff.mpr hc) htaken.map ih
  | code hcode hother _ ih =>
    exact .code (by simpa using hcode) (mt toNat_neutralChar_eq_iff.mp hother) ih
  | char hkept _ ih => exact .char (by simpa using hkept) ih

theorem plainChars_map (text : List Char) :
    plainChars (text.map neutralChar) = (plainChars text).map neutralChar :=
  (stripped_iff.mp (stripped_iff.mpr rfl).map).symm

theorem Stripped.no_codes (h : Stripped text plain) : ∀ c ∈ plain, isFormattingCode c = false := by
  induction h with
  | nil => simp
  | color _ _ _ ih => exact ih
  | code _ _ _ ih => exact ih
  | char hkept _ ih =>
    rintro d (- | ⟨-, hd⟩)
    · exact hkept
    · exact ih d hd

theorem stripped_self (h : ∀ c ∈ text, isFormattingCode c = false) : Stripped text text := by
  induction text with
  | nil => exact .nil
  | cons c text ih =>
    exact .char (h c List.mem_cons_self) (ih fun d hd => h d (List.mem_cons_of_mem c hd))

/-! ## The gate -/

theorem osChar_eq (multiline : Bool) (c : Char) :
    osChar multiline c = handleControl multiline (neutralChar c) := by
  unfold neutralChar
  split_ifs with hb
  · have hrange : 128 ≤ c.toNat ∧ c.toNat ≠ 0x2028 ∧ c.toNat ≠ 0x2029 ∧ 0xA0 ≤ c.toNat := by
      simp only [isBidiControl, Bool.or_eq_true, Bool.and_eq_true, decide_eq_true_eq] at hb
      omega
    have hne : ∀ d : Char, d.toNat < 128 ∨ d.toNat = 0x2028 ∨ d.toNat = 0x2029 → c ≠ d := by
      rintro d hd rfl
      omega
    have hcontrol : isControl c = false := by
      simp only [isControl, Bool.or_eq_false_iff, decide_eq_false_iff_not, Bool.and_eq_false_iff]
      omega
    have hline : c ≠ '\n' := hne _ (by decide)
    have htab : c ≠ '\t' := hne _ (by decide)
    have hseparator : c ≠ '\u2028' := hne _ (by decide)
    have hparagraph : c ≠ '\u2029' := hne _ (by decide)
    cases multiline <;> simp [osChar, hline, htab, hseparator, hparagraph, hcontrol, hb] <;> decide
  · simp [osChar, handleControl, hb]

theorem osText_eq (text : String) (multiline : Bool) (limit : ℕ) :
    osText text multiline limit = osSteps text multiline limit := by
  have hneutral : (neutralizeBidi text).toList = text.toList.map neutralChar := by
    simp [neutralizeBidi, neutralChar]
  have hone : osChar multiline = handleControl multiline ∘ neutralChar := by
    ext1 c
    exact osChar_eq multiline c
  simp only [osText, osSteps, stripFormatting, String.toList_ofList, hneutral, plainChars_map,
    List.filterMap_map, hone]

/-- What a safe text is made of. -/
structure SafeChar (multiline : Bool) (c : Char) : Prop where
  direction : isBidiControl c = false
  code : isFormattingCode c = false
  control : isControl c = true → c = '\n' ∧ multiline = true
  stays : osChar multiline c = some c

theorem safeChar_ellipsis (multiline : Bool) : SafeChar multiline '…' := by
  cases multiline <;> exact ⟨by decide, by decide, by decide, by decide⟩

theorem safeChar_space (multiline : Bool) : SafeChar multiline ' ' := by
  cases multiline <;> exact ⟨by decide, by decide, by decide, by decide⟩

theorem safeChar_zeroWidth (multiline : Bool) : SafeChar multiline '\u200B' := by
  cases multiline <;> exact ⟨by decide, by decide, by decide, by decide⟩

theorem safeChar_osChar (hc : isFormattingCode c = false) (h : osChar multiline c = some d) :
    SafeChar multiline d := by
  have hstays := h
  unfold osChar at h
  split_ifs at h with hline hspace hcontrol hbidi
  · obtain rfl := Option.some.inj h
    obtain ⟨-, rfl⟩ := hline
    exact ⟨by decide, by decide, by decide, by decide⟩
  · obtain rfl := Option.some.inj h
    exact safeChar_space multiline
  · obtain rfl := Option.some.inj h
    exact safeChar_zeroWidth multiline
  · obtain rfl := Option.some.inj h
    exact ⟨by simpa using hbidi, hc, fun h => absurd h hcontrol, hstays⟩

theorem length_cutText (h : 1 ≤ limit) (cs : List Char) : (cutText limit cs).length ≤ limit := by
  unfold cutText
  split
  · rw [List.length_append, List.length_take, List.length_singleton]
    omega
  · rename_i hnone
    exact List.getElem?_eq_none_iff.mp hnone

theorem cutText_of_le (h : cs.length ≤ limit) : cutText limit cs = cs := by
  unfold cutText
  rw [List.getElem?_eq_none_iff.mpr h]

theorem mem_cutText (h : c ∈ cutText limit cs) : c ∈ cs ∨ c = '…' := by
  unfold cutText at h
  split at h
  · rw [List.mem_append, List.mem_singleton] at h
    exact h.imp_left List.mem_of_mem_take
  · exact .inl h

theorem safeChar_osText {text : String} (h : c ∈ (osText text multiline limit).toList) :
    SafeChar multiline c := by
  rw [osText, String.toList_ofList] at h
  obtain hc | rfl := mem_cutText h
  · obtain ⟨d, hd, hdc⟩ := List.mem_filterMap.mp hc
    exact safeChar_osChar ((stripped_iff.mpr rfl).no_codes d hd) hdc
  · exact safeChar_ellipsis multiline

theorem length_osText (h : 1 ≤ limit) (text : String) (multiline : Bool) :
    (osText text multiline limit).toList.length ≤ limit := by
  rw [osText, String.toList_ofList]
  exact length_cutText h _

theorem osText_of_safe {text : String} (hs : ∀ c ∈ text.toList, SafeChar multiline c)
    (hl : text.toList.length ≤ limit) : osText text multiline limit = text := by
  have hplain : plainChars text.toList = text.toList :=
    (stripped_iff.mp (stripped_self fun c hc => (hs c hc).code)).symm
  have hkept : text.toList.filterMap (osChar multiline) = text.toList := by
    conv_rhs => rw [← List.filterMap_some (l := text.toList)]
    exact List.filterMap_congr fun c hc => (hs c hc).stays
  rw [osText, hplain, hkept, cutText_of_le hl, String.ofList_toList]

theorem osText_osText (h : 1 ≤ limit) (text : String) (multiline : Bool) :
    osText (osText text multiline limit) multiline limit = osText text multiline limit :=
  osText_of_safe (fun _ => safeChar_osText) (length_osText h text multiline)

end CayenChat.Text
