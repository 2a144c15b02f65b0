import CayenChat.Lib.Occurrences
import CayenChat.Lib.Utf8
import CayenChat.Wire.Text
import CayenChat.Wire.Names

/-! # Nickname mentions

Whole-word occurrences of a nickname in a text, found by a scan without
overlaps, and what a search of the text without formatting codes finds in the
text as it is. Which characters beyond ASCII are letters or digits is a
parameter.
-/

namespace CayenChat.Mentions

open Utf8

variable (table : Char → Bool)

def isAlphanumeric (c : Char) : Bool := if c.toNat < 128 then c.isAlphanum else table c

def isNickChar (c : Char) : Bool :=
  isAlphanumeric table c || ['-', '_', '[', ']', '\\', '`', '^', '{', '}', '|'].contains c

def filterChecked (keep : Range → Option Bool) : List Range → Option (List Range)
  | [] => some []
  | range :: ranges => do
    if ← keep range then return range :: (← filterChecked keep ranges)
    else filterChecked keep ranges

def standsAlone (lower : List Char) (range : Range) : Option Bool := do
  let (before, _) ← split lower range.start
  let (_, after) ← split lower range.stop
  return !before.getLast?.any (isNickChar table) && !after.head?.any (isNickChar table)

/-- The ranges of the whole-word occurrences of a nickname. -/
def mentionRanges (text nickname : String) : Option (List Range) :=
  if nickname = "" then some []
  else
    let lower := (nicknameKey text).toList
    let nickname := (nicknameKey nickname).toList
    let found := (Occurrences.scan Char.utf8Size nickname 0 lower).map fun start =>
      (⟨start, start + size nickname⟩ : Range)
    filterChecked (standsAlone table lower) found

/-- The characters of what is left of a text of a length but formatting codes, each with its
offset. -/
def eachPlainChar (length : ℕ) : List Char → List (ℕ × Char)
  | [] => []
  | c :: cs =>
    if c.toNat = 3 then eachPlainChar length (skipColor cs)
    else if isFormattingCode c then eachPlainChar length cs
    else (length - size (c :: cs), c) :: eachPlainChar length cs
termination_by cs => cs.length
decreasing_by
  · have := length_skipColor_le cs
    simp only [List.length_cons]
    omega
  · simp
  · simp

def byteOffsets (kept : List (ℕ × Char)) : List ℕ :=
  kept.flatMap fun (offset, c) => List.range' offset c.utf8Size

/-- What a search finds in a text without formatting codes, as ranges of the text. -/
def plainRanges (text : List Char) (find : List Char → List Range) : Option (List Range) :=
  if !text.any isFormattingCode then
    some ((find text).filter fun range => range.start < range.stop)
  else
    let kept := eachPlainChar (size text) text
    let offsets := byteOffsets kept
    ((find (kept.map Prod.snd)).filter fun range => range.start < range.stop).mapM fun range => do
      return ⟨← offsets[range.start]?, (← offsets[range.stop - 1]?) + 1⟩

/-! ## Whole words -/

def WholeWord (text nickname : String) (range : Range) : Prop :=
  ∃ p q, (nicknameKey text).toList = p ++ (nicknameKey nickname).toList ++ q ∧
    range = ⟨size p, size p + size (nicknameKey nickname).toList⟩ ∧
    (∀ c ∈ p.getLast?, ¬ isNickChar table c = true) ∧ ∀ c ∈ q.head?, ¬ isNickChar table c = true

variable {table} {text nickname : String} {range : Range} {c : Char}

theorem isNickChar_ascii (h : c.toNat < 128) : isNickChar table c =
    (c.isAlphanum || ['-', '_', '[', ']', '\\', '`', '^', '{', '}', '|'].contains c) := by
  rw [isNickChar, isAlphanumeric, if_pos h]

theorem isNickChar_fold (h : isNickChar table c = true) :
    isNickChar table (CaseMapping.rfc1459.foldChar c) = true := by
  by_cases hc : c.toNat < 128
  · have hall : ∀ n < 128, (((Char.ofNat n).isAlphanum ||
        ['-', '_', '[', ']', '\\', '`', '^', '{', '}', '|'].contains (Char.ofNat n)) = true →
        (CaseMapping.rfc1459.foldChar (Char.ofNat n)).toNat < 128 ∧
        ((CaseMapping.rfc1459.foldChar (Char.ofNat n)).isAlphanum ||
          ['-', '_', '[', ']', '\\', '`', '^', '{', '}', '|'].contains
            (CaseMapping.rfc1459.foldChar (Char.ofNat n))) = true) := by decide +kernel
    rw [isNickChar_ascii hc] at h
    obtain ⟨hlt, hnick⟩ := hall c.toNat hc (by rwa [Char.ofNat_toNat])
    rw [Char.ofNat_toNat] at hlt hnick
    rw [isNickChar_ascii hlt, hnick]
  · rcases CaseMapping.rfc1459.foldChar_cases c with hf | ⟨-, hf, -⟩
    · rw [hf, h]
    · omega

theorem filterChecked_eq {keep : Range → Option Bool} {f : Range → Bool} {ranges : List Range}
    (h : ∀ range ∈ ranges, keep range = some (f range)) :
    filterChecked keep ranges = some (ranges.filter f) := by
  induction ranges with
  | nil => rfl
  | cons range ranges ih =>
    have hrest := ih fun r hr => h r (List.mem_cons_of_mem _ hr)
    rw [filterChecked, h range List.mem_cons_self, hrest]
    cases hf : f range with
    | true => rw [List.filter_cons_of_pos hf]; rfl
    | false => rw [List.filter_cons_of_neg (by simp [hf])]; rfl

theorem weight_eq_size (s : List Char) : Occurrences.weight Char.utf8Size s = size s := rfl

theorem standsAlone_append (p m q : List Char) :
    standsAlone table (p ++ m ++ q) ⟨size p, size p + size m⟩ =
      some (!p.getLast?.any (isNickChar table) && !q.head?.any (isNickChar table)) := by
  unfold standsAlone
  dsimp only
  rw [← size_append, split_append, List.append_assoc, split_append]
  rfl

theorem any_eq_false_iff {o : Option Char} {f : Char → Bool} :
    o.any f = false ↔ ∀ c ∈ o, ¬ f c = true := by
  cases o <;> simp

theorem span_of_fold (h : Span (nicknameKey text).toList range) : Span text.toList range := by
  have hb : ∀ n, Boundary (nicknameKey text).toList n → Boundary text.toList n := by
    rintro n ⟨p, q, hpq, rfl⟩
    rw [nicknameKey, CaseMapping.fold, String.toList_ofList, List.map_eq_append_iff] at hpq
    obtain ⟨p', q', hpq, rfl, rfl⟩ := hpq
    refine ⟨p', q', hpq, ?_⟩
    rw [size, size, List.map_map]
    exact congrArg List.sum (List.map_congr_left fun c _ =>
      (CaseMapping.utf8Size_foldChar _ c).symm)
  exact ⟨h.le, hb _ h.start, hb _ h.stop⟩

theorem mentionRanges_spec (hne : nickname ≠ "")
    (hnick : ∀ c ∈ nickname.toList, isNickChar table c = true) :
    ∃ ranges, mentionRanges table text nickname = some ranges ∧
      ranges.Pairwise (fun a b => a.start < b.start) ∧
      (∀ range, range ∈ ranges ↔ WholeWord table text nickname range) ∧
      ∀ range ∈ ranges, Span text.toList range := by
  have hkey : (nicknameKey nickname).toList = nickname.toList.map CaseMapping.rfc1459.foldChar :=
    String.toList_ofList
  have hpne : (nicknameKey nickname).toList ≠ [] := by
    rw [hkey, ne_eq, List.map_eq_nil_iff, String.toList_eq_nil_iff]
    exact hne
  have hletter : ∀ c ∈ (nicknameKey nickname).toList, isNickChar table c = true := by
    intro c hc
    rw [hkey] at hc
    obtain ⟨d, hd, rfl⟩ := List.mem_map.mp hc
    exact isNickChar_fold (hnick d hd)
  generalize hl : (nicknameKey text).toList = lower
  generalize hn : (nicknameKey nickname).toList = word at hpne hletter
  let found := (Occurrences.scan Char.utf8Size word 0 lower).map fun start =>
    (⟨start, start + size word⟩ : Range)
  have hoccurs : ∀ range ∈ found, ∃ p q, lower = p ++ word ++ q ∧
      range = ⟨size p, size p + size word⟩ := by
    intro range hr
    obtain ⟨start, hs, rfl⟩ := List.mem_map.mp hr
    obtain ⟨p, q, hpq, rfl⟩ := Occurrences.occurs_of_mem_scan hpne hs
    refine ⟨p, q, hpq, ?_⟩
    rw [weight_eq_size, Nat.zero_add]
  have hchecked := @filterChecked_eq (standsAlone table lower)
    (fun range => (standsAlone table lower range).getD false) found (by
      intro range hr
      obtain ⟨p, q, rfl, rfl⟩ := hoccurs range hr
      rw [standsAlone_append]
      rfl)
  refine ⟨found.filter fun range => (standsAlone table lower range).getD false, ?_, ?_,
    fun range => ?_, fun range hr => ?_⟩
  · unfold mentionRanges
    rw [if_neg hne, hl, hn]
    exact hchecked
  · apply List.Pairwise.filter
    rw [List.pairwise_map]
    exact Occurrences.pairwise_scan hpne fun c _ => c.utf8Size_pos
  · unfold WholeWord
    rw [List.mem_filter, hl, hn]
    constructor
    · rintro ⟨hf, hs⟩
      obtain ⟨p, q, rfl, rfl⟩ := hoccurs range hf
      rw [standsAlone_append, Option.getD_some, Bool.and_eq_true, Bool.not_eq_true',
        Bool.not_eq_true', any_eq_false_iff, any_eq_false_iff] at hs
      exact ⟨p, q, rfl, rfl, hs⟩
    · rintro ⟨p, q, rfl, rfl, hb, ha⟩
      constructor
      · refine List.mem_map.mpr ⟨size p, ?_, rfl⟩
        have h := @Occurrences.mem_scan _ Char.utf8Size _ p q 0 _ hpne _ hletter hb
        rwa [weight_eq_size, Nat.zero_add] at h
      · rw [standsAlone_append, Option.getD_some, Bool.and_eq_true, Bool.not_eq_true',
          Bool.not_eq_true', any_eq_false_iff, any_eq_false_iff]
        exact ⟨hb, ha⟩
  · obtain ⟨p, q, hpq, rfl⟩ := hoccurs range (List.mem_of_mem_filter hr)
    apply span_of_fold
    rw [hl, hpq]
    exact span_append p word q

/-! ## Formatting codes -/

theorem skipDigits_cases (cs : List Char) :
    ((∀ c ∈ cs.head?, c.isDigit = false) ∧ skipDigits cs = cs) ∨
    (∃ d rest, cs = d :: rest ∧ d.isDigit = true ∧ (∀ c ∈ rest.head?, c.isDigit = false) ∧
      skipDigits cs = rest) ∨
    ∃ d e rest, cs = d :: e :: rest ∧ d.isDigit = true ∧ e.isDigit = true ∧
      skipDigits cs = rest := by
  rcases cs with _ | ⟨d, cs⟩
  · exact .inl ⟨fun _ h => (by cases h), rfl⟩
  by_cases hd : d.isDigit = true
  swap
  · refine .inl ⟨?_, by simp [skipDigits, hd]⟩
    simpa using hd
  right
  rcases cs with _ | ⟨e, cs⟩
  · exact .inl ⟨d, [], rfl, hd, fun _ h => (by cases h), by simp [skipDigits, hd]⟩
  by_cases he : e.isDigit = true
  · refine .inr ⟨d, e, cs, rfl, hd, he, ?_⟩
    simp [skipDigits, hd, he]
  · refine .inl ⟨d, e :: cs, rfl, hd, ?_, by simp [skipDigits, hd, he]⟩
    simpa using he

theorem skipDigits_part {ds cs rest : List Char} (h : cs = ds ++ skipDigits cs) (hne : rest ≠ [])
    (hrest : rest <+: skipDigits cs) : skipDigits (ds ++ rest) = rest := by
  obtain ⟨c, rest, rfl⟩ := List.exists_cons_of_ne_nil hne
  obtain ⟨tail, htail⟩ := hrest
  rcases skipDigits_cases cs with ⟨hc, hs⟩ | ⟨d, more, rfl, hd, hc, hs⟩ | ⟨d, e, more, rfl, hd, he, hs⟩
  · rw [hs] at h htail
    obtain rfl : ds = [] := List.self_eq_append_left.mp h
    have hcd : c.isDigit = false := hc c (by rw [← htail]; rfl)
    simp [skipDigits, hcd]
  · rw [hs] at h htail
    obtain rfl : ds = [d] := by
      have h' : [d] ++ more = ds ++ more := h
      exact (List.append_cancel_right h').symm
    have hcd : c.isDigit = false := hc c (by rw [← htail]; rfl)
    simp [skipDigits, hd, hcd]
  · rw [hs] at h
    obtain rfl : ds = [d, e] := by
      have h' : [d, e] ++ more = ds ++ more := h
      exact (List.append_cancel_right h').symm
    simp [skipDigits, hd, he]

theorem exists_skipDigits (cs : List Char) : ∃ ds, cs = ds ++ skipDigits cs :=
  ⟨cs.take (min 2 (cs.takeWhile Char.isDigit).length), (List.take_append_drop ..).symm⟩

/-- What is left behind the first digits of a color, a second color skipped. -/
def afterComma (rest : List Char) : List Char :=
  match rest with
  | ',' :: d :: more => if d.isDigit then skipDigits (d :: more) else rest
  | _ => rest

theorem skipColor_eq (cs : List Char) : skipColor cs =
    if (skipDigits cs).length = cs.length then skipDigits cs else afterComma (skipDigits cs) := rfl

theorem afterComma_cases (rest : List Char) :
    (∃ d more, rest = ',' :: d :: more ∧ d.isDigit = true ∧ afterComma rest = skipDigits (d :: more))
    ∨ (afterComma rest = rest ∧ ∀ d more, rest = ',' :: d :: more → d.isDigit = false) := by
  unfold afterComma
  split
  · rename_i d more
    by_cases hd : d.isDigit = true
    · exact .inl ⟨d, more, rfl, hd, if_pos hd⟩
    · refine .inr ⟨if_neg hd, fun e more' h => ?_⟩
      cases h
      simpa using hd
  · rename_i hno
    exact .inr ⟨rfl, fun d more h => absurd h (hno d more)⟩

theorem afterComma_of_part {rest part : List Char} (h : part <+: rest)
    (hno : ∀ d more, rest = ',' :: d :: more → d.isDigit = false) : afterComma part = part := by
  obtain ⟨tail, rfl⟩ := h
  rcases afterComma_cases part with ⟨d, more, rfl, hd, -⟩ | ⟨he, -⟩
  · have := hno d (more ++ tail) rfl
    rw [hd] at this
    cases this
  · exact he

/-- What stands between a color code and what is left after it, and that any part of that left
over is left over again. -/
theorem skipColor_spec (cs : List Char) : ∃ code, cs = code ++ skipColor cs ∧
    ∀ rest, rest ≠ [] → rest <+: skipColor cs → skipColor (code ++ rest) = rest := by
  obtain ⟨ds, hds⟩ := exists_skipDigits cs
  by_cases hlen : (skipDigits cs).length = cs.length
  · obtain rfl : ds = [] := by
      have := congrArg List.length hds
      rw [List.length_append] at this
      exact List.length_eq_zero_iff.mp (by omega)
    refine ⟨[], ?_, fun rest hne hrest => ?_⟩
    · rw [skipColor_eq, if_pos hlen]
      exact hds
    · rw [skipColor_eq, if_pos hlen] at hrest
      have hpart := skipDigits_part hds hne hrest
      rw [List.nil_append] at hpart ⊢
      rw [skipColor_eq, hpart, if_pos rfl]
  · have hdne : ds ≠ [] := by
      rintro rfl
      exact hlen (congrArg List.length hds).symm
    have hlonger : ∀ rest : List Char, rest.length ≠ (ds ++ rest).length := by
      intro rest
      have := List.length_pos_of_ne_nil hdne
      rw [List.length_append]
      omega
    rcases afterComma_cases (skipDigits cs) with ⟨d, more, hrest0, hd, he⟩ | ⟨he, hno⟩
    · obtain ⟨es, hes⟩ := exists_skipDigits (d :: more)
      obtain ⟨es, rfl⟩ : ∃ es', es = d :: es' := by
        rcases es with _ | ⟨e, es⟩
        · have hskip := length_skipDigits_le more
          rcases skipDigits_cases (d :: more) with ⟨hc, -⟩ | ⟨f, rest, hf, -, -, hs⟩ |
            ⟨f, g, rest, hf, -, -, hs⟩
          · rw [hc d rfl] at hd
            cases hd
          · rw [hs, List.nil_append, hf] at hes
            exact absurd (congrArg List.length hes) (by simp)
          · rw [hs, List.nil_append, hf] at hes
            exact absurd (congrArg List.length hes) (by simp; omega)
        · rw [List.cons_append, List.cons.injEq] at hes
          exact ⟨es, by rw [hes.1]⟩
      refine ⟨ds ++ ',' :: d :: es, ?_, fun rest hne hrest => ?_⟩
      · rw [skipColor_eq, if_neg hlen, he, List.append_assoc, List.cons_append, ← hes, ← hrest0]
        exact hds
      · rw [skipColor_eq, if_neg hlen, he] at hrest
        have hfirst : skipDigits (ds ++ (',' :: (d :: es ++ rest))) = ',' :: (d :: es ++ rest) := by
          refine skipDigits_part hds (List.cons_ne_nil _ _) ?_
          rw [hrest0, List.cons_prefix_cons, hes]
          exact ⟨rfl, (List.prefix_append_right_inj _).mpr hrest⟩
        rw [List.append_assoc, List.cons_append, skipColor_eq, hfirst, if_neg (hlonger _)]
        rcases afterComma_cases (',' :: (d :: es ++ rest)) with ⟨d', more', h', -, he'⟩ | ⟨-, hno'⟩
        · rw [List.cons.injEq] at h'
          rw [he', ← h'.2]
          exact skipDigits_part hes hne hrest
        · have := hno' d (es ++ rest) rfl
          rw [hd] at this
          cases this
    · refine ⟨ds, ?_, fun rest hne hrest => ?_⟩
      · rw [skipColor_eq, if_neg hlen, he]
        exact hds
      · rw [skipColor_eq, if_neg hlen, he] at hrest
        rw [skipColor_eq, skipDigits_part hds hne hrest, if_neg (hlonger _)]
        exact afterComma_of_part hrest hno

/-! ## Ranges of the text -/

theorem plainChars_cons (c : Char) (cs : List Char) : plainChars (c :: cs) =
    if c.toNat = 3 then plainChars (skipColor cs)
    else if isFormattingCode c then plainChars cs
    else c :: plainChars cs := by
  rw [plainChars]

theorem map_eachPlainChar (length : ℕ) (text : List Char) :
    (eachPlainChar length text).map Prod.snd = plainChars text := by
  fun_induction eachPlainChar length text with
  | case1 => rw [plainChars]; rfl
  | case2 c cs h3 ih => rw [plainChars_cons, if_pos h3, ih]
  | case3 c cs h3 hf ih => rw [plainChars_cons, if_neg h3, if_pos hf, ih]
  | case4 c cs h3 hf ih => rw [plainChars_cons, if_neg h3, if_neg hf, List.map_cons, ih]

/-- A kept character cuts the text in two: what stands up to it is plain as the characters kept so
far are, and the scan goes on from it as it does from the start. -/
theorem eachPlainChar_cut {length o : ℕ} {d : Char} {text : List Char} {before after : List (ℕ × Char)}
    (h : eachPlainChar length text = before ++ (o, d) :: after) :
    ∃ front back, text = front ++ d :: back ∧ o = length - size (d :: back) ∧
      plainChars (front ++ [d]) = before.map Prod.snd ++ [d] ∧
      eachPlainChar length (d :: back) = (o, d) :: after := by
  fun_induction eachPlainChar length text generalizing before with
  | case1 => exact absurd h (by simp)
  | case2 c cs h3 ih =>
    obtain ⟨front, back, hcs, ho, hplain, hrest⟩ := ih h
    obtain ⟨code, hcode, hpart⟩ := skipColor_spec cs
    refine ⟨c :: code ++ front, back, ?_, ho, ?_, hrest⟩
    · rw [List.append_assoc, ← hcs, List.cons_append, ← hcode]
    · rw [List.append_assoc, List.cons_append, plainChars_cons, if_pos h3, hpart, hplain]
      · simp
      · exact ⟨back, by rw [hcs]; simp⟩
  | case3 c cs h3 hf ih =>
    obtain ⟨front, back, rfl, ho, hplain, hrest⟩ := ih h
    refine ⟨c :: front, back, rfl, ho, ?_, hrest⟩
    rw [List.cons_append, plainChars_cons, if_neg h3, if_pos hf, hplain]
  | case4 c cs h3 hf ih =>
    cases before with
    | nil =>
      rw [List.nil_append, List.cons.injEq, Prod.mk.injEq] at h
      obtain ⟨⟨rfl, rfl⟩, rfl⟩ := h
      refine ⟨[], cs, rfl, rfl, ?_, ?_⟩
      · rw [List.nil_append, plainChars_cons, if_neg h3, if_neg hf, plainChars]
        rfl
      · rw [eachPlainChar, if_neg h3, if_neg hf]
    | cons x before =>
      rw [List.cons_append, List.cons.injEq] at h
      obtain ⟨rfl, h⟩ := h
      obtain ⟨front, back, rfl, ho, hplain, hrest⟩ := ih h
      refine ⟨c :: front, back, rfl, ho, ?_, hrest⟩
      rw [List.cons_append, plainChars_cons, if_neg h3, if_neg hf, hplain]
      rfl

theorem length_byteOffsets (kept : List (ℕ × Char)) :
    (byteOffsets kept).length = size (kept.map Prod.snd) := by
  induction kept with
  | nil => rfl
  | cons x kept ih =>
    rw [byteOffsets, List.flatMap_cons, List.length_append, List.length_range', List.map_cons,
      size_cons, ← ih]
    rfl

theorem byteOffsets_at {before after : List (ℕ × Char)} {o i : ℕ} {d : Char}
    (hi : i < d.utf8Size) :
    (byteOffsets (before ++ (o, d) :: after))[size (before.map Prod.snd) + i]? = some (o + i) := by
  have hb : byteOffsets (before ++ (o, d) :: after) =
      byteOffsets before ++ (List.range' o d.utf8Size ++ byteOffsets after) := by
    simp [byteOffsets]
  rw [hb, ← length_byteOffsets, List.getElem?_append_right (Nat.le_add_right ..),
    Nat.add_sub_cancel_left, List.getElem?_append_left (by rw [List.length_range']; exact hi),
    List.getElem?_range' hi, Nat.one_mul]

def Maps (text : List Char) (found range : Range) : Prop :=
  Span text range ∧ ∃ m, slice text range.start range.stop = some m ∧
    slice (plainChars text) found.start found.stop = some (plainChars m)

theorem maps_back {text : List Char} {found : Range} (hlt : found.start < found.stop)
    (h : Span (plainChars text) found) :
    ∃ first last, (byteOffsets (eachPlainChar (size text) text))[found.start]? = some first ∧
      (byteOffsets (eachPlainChar (size text) text))[found.stop - 1]? = some last ∧
      Maps text found ⟨first, last + 1⟩ := by
  obtain ⟨p, m, q, hpmq, hstart, hstop⟩ := h.parts
  have hm : m ≠ [] := by
    rintro rfl
    rw [size_nil] at hstop
    omega
  have hkept := map_eachPlainChar (size text) text
  rw [hpmq] at hkept
  obtain ⟨kpm, kq, hk, hkpm, rfl⟩ := List.map_eq_append_iff.mp hkept
  obtain ⟨kp, km, rfl, rfl, rfl⟩ := List.map_eq_append_iff.mp hkpm
  have hkm : km ≠ [] := by
    rintro rfl
    exact hm rfl
  obtain ⟨⟨o, c⟩, kma, hfirst⟩ := List.exists_cons_of_ne_nil hkm
  obtain ⟨kmb, ⟨o', d⟩, hlast⟩ : ∃ kmb last, km = kmb ++ [last] :=
    ⟨km.dropLast, km.getLast hkm, (List.dropLast_append_getLast hkm).symm⟩
  -- The scan is cut at the first character of the range, and from there at the last one.
  obtain ⟨front, back, htext, ho, -, hrest⟩ := @eachPlainChar_cut (size text) o c text kp (kma ++ kq) (by
    rw [hk, hfirst]
    simp)
  have hrest' : eachPlainChar (size text) (c :: back) = kmb ++ (o', d) :: kq := by
    rw [hrest, ← List.cons_append, ← hfirst, hlast]
    simp
  obtain ⟨inner, tail, hinner, ho', hplain, -⟩ := eachPlainChar_cut hrest'
  have hpos := d.utf8Size_pos
  have htext' : text = front ++ (inner ++ [d]) ++ tail := by
    rw [htext, hinner]
    simp
  have hsize : size text = size front + (size inner + (d.utf8Size + size tail)) := by
    rw [htext, hinner]
    simp
  have hof : o = size front := by
    rw [ho, htext, size_append]
    omega
  have hol : o' + (d.utf8Size - 1) + 1 = size front + size (inner ++ [d]) := by
    rw [ho', hsize]
    simp only [size_append, size_cons, size_nil]
    omega
  refine ⟨o, o' + (d.utf8Size - 1), ?_, ?_, ?_⟩
  · have hat := @byteOffsets_at kp (kma ++ kq) o 0 c c.utf8Size_pos
    rw [hk, hfirst, ← hstart]
    simpa using hat
  · have hat := @byteOffsets_at (kp ++ kmb) kq o' (d.utf8Size - 1) d (by omega)
    have hindex : size ((kp ++ kmb).map Prod.snd) + (d.utf8Size - 1) = found.stop - 1 := by
      rw [← hstop, hlast]
      simp only [List.map_append, size_append, List.map_cons, List.map_nil, size_cons, size_nil]
      omega
    rw [hindex] at hat
    rw [hk, hlast]
    simpa using hat
  · rw [hol, hof]
    refine ⟨htext' ▸ span_append front (inner ++ [d]) tail, inner ++ [d], ?_, ?_⟩
    · rw [htext']
      exact slice_append front (inner ++ [d]) tail
    · rw [hplain, hpmq, slice_eq_some]
      refine ⟨kp.map Prod.snd, kq.map Prod.snd, ?_, hstart, ?_⟩
      · rw [hlast]
        simp
      · rw [← hstop, hlast]
        simp

theorem mapM_forall₂ {α β : Type} {R : α → β → Prop} {f : α → Option β} {xs : List α}
    (h : ∀ x ∈ xs, ∃ y, f x = some y ∧ R x y) :
    ∃ ys, xs.mapM f = some ys ∧ List.Forall₂ R xs ys := by
  induction xs with
  | nil => exact ⟨[], rfl, .nil⟩
  | cons x xs ih =>
    obtain ⟨y, hy, hr⟩ := h x List.mem_cons_self
    obtain ⟨ys, hys, hrs⟩ := ih fun x hx => h x (List.mem_cons_of_mem _ hx)
    refine ⟨y :: ys, ?_, .cons hr hrs⟩
    rw [List.mapM_cons, hy, hys]
    rfl

theorem plainChars_of_none {text : List Char} (h : text.any isFormattingCode = false) :
    plainChars text = text := by
  induction text with
  | nil => rw [plainChars]
  | cons c cs ih =>
    rw [List.any_cons, Bool.or_eq_false_iff] at h
    have h3 : c.toNat ≠ 3 := by
      intro h3
      have := h.1
      rw [isFormattingCode, h3] at this
      cases this
    rw [plainChars_cons, if_neg h3, h.1, if_neg Bool.false_ne_true, ih h.2]

theorem plainRanges_spec {text : List Char} {find : List Char → List Range}
    (h : ∀ range ∈ find (plainChars text), range.start < range.stop →
      Span (plainChars text) range) :
    ∃ ranges, plainRanges text find = some ranges ∧
      List.Forall₂ (Maps text) ((find (plainChars text)).filter fun range => range.start < range.stop)
        ranges := by
  have hspan : ∀ range ∈ (find (plainChars text)).filter fun range => range.start < range.stop,
      range.start < range.stop ∧ Span (plainChars text) range := by
    intro range hr
    obtain ⟨hm, hlt⟩ := List.mem_filter.mp hr
    rw [decide_eq_true_eq] at hlt
    exact ⟨hlt, h range hm hlt⟩
  unfold plainRanges
  cases hcode : text.any isFormattingCode with
  | false =>
    have hplain := plainChars_of_none hcode
    rw [hplain] at hspan ⊢
    refine ⟨_, rfl, List.forall₂_same.mpr fun range hr => ?_⟩
    obtain ⟨m, hm⟩ := (hspan range hr).2.slice
    obtain ⟨p, q, hpq, -, -⟩ := slice_eq_some.mp hm
    have hmcode : m.any isFormattingCode = false := by
      rw [hpq, List.any_append, List.any_append, Bool.or_eq_false_iff, Bool.or_eq_false_iff] at hcode
      exact hcode.1.2
    refine ⟨(hspan range hr).2, m, hm, ?_⟩
    rw [hplain, plainChars_of_none hmcode]
    exact hm
  | true =>
    dsimp only
    rw [map_eachPlainChar, Bool.not_true, if_neg Bool.false_ne_true]
    refine mapM_forall₂ fun range hr => ?_
    obtain ⟨first, last, hf, hl, hmaps⟩ := maps_back (hspan range hr).1 (hspan range hr).2
    refine ⟨⟨first, last + 1⟩, ?_, hmaps⟩
    rw [hf, hl]
    rfl

/-- The mentions of a nickname are its whole-word occurrences in order, and what is found in a
text without formatting codes is found in the text. -/
theorem highlights_found (table : Char → Bool) :
    (∀ text nickname, nickname ≠ "" → (∀ c ∈ nickname.toList, isNickChar table c = true) →
      ∃ ranges, mentionRanges table text nickname = some ranges ∧
        ranges.Pairwise (fun a b => a.start < b.start) ∧
        (∀ range, range ∈ ranges ↔ WholeWord table text nickname range) ∧
        ∀ range ∈ ranges, Span text.toList range) ∧
    ∀ (text : List Char) (find : List Char → List Range),
      (∀ range ∈ find (plainChars text), range.start < range.stop →
        Span (plainChars text) range) →
      ∃ ranges, plainRanges text find = some ranges ∧
        List.Forall₂ (Maps text)
          ((find (plainChars text)).filter fun range => range.start < range.stop) ranges :=
  ⟨fun _ _ hne hnick => mentionRanges_spec hne hnick, fun _ _ h => plainRanges_spec h⟩

example : mentionRanges (fun _ => false) "Bob, bobby and @bob" "bob" =
    some [⟨0, 3⟩, ⟨16, 19⟩] := by decide +kernel

end CayenChat.Mentions
