import CayenChat.Storage.Appearance

/-! # Appearance settings over time

What is saved to the palette and set for channels is what is read back: cleaning leaves it, and the
palette and the looks hold nothing twice.
-/

namespace CayenChat.Storage
open Radix
open Appearance (paletteColor keepColors cleanPalette cleanChannelLooks isLookOf)

variable {colors kept : List String} {color value : String} {looks : List ChannelLook}
  {look other : ChannelLook} {a : Appearance} {row : ℕ} {c : Char}

/-! ## The palette -/

theorem not_isWhitespace_of_isDigit (h : isDigit 16 c = true) : isWhitespace c = false := by
  have hrange : (48 ≤ c.toNat ∧ c.toNat ≤ 57) ∨ (97 ≤ c.toNat ∧ c.toNat ≤ 102) ∨
      (65 ≤ c.toNat ∧ c.toNat ≤ 70) := by
    simp only [isDigit, toDigit] at h
    split_ifs at h <;> first | omega | simp at h
  simp only [isWhitespace, Bool.or_eq_false_iff, Bool.and_eq_false_iff, decide_eq_false_iff_not,
    beq_eq_false_iff_ne]
  omega

theorem not_isWhitespace_of_colorValue (h : (colorValue value).isSome = true) :
    ∀ c ∈ value.toList, isWhitespace c = false := by
  have hsign : isWhitespace '#' = false := by decide
  have hplus : isWhitespace '+' = false := by decide
  obtain ⟨digits, heq, -, hall⟩ | ⟨digits, heq, -, hall⟩ := colorValue_isSome.mp h
  · rw [heq]
    rintro c (- | ⟨_, hc⟩)
    · exact hsign
    · exact not_isWhitespace_of_isDigit (hall c hc)
  · rw [heq]
    rintro c (- | ⟨_, - | ⟨_, hc⟩⟩)
    · exact hsign
    · exact hplus
    · exact not_isWhitespace_of_isDigit (hall c hc)

theorem toAsciiUppercase_idem (s : String) :
    toAsciiUppercase (toAsciiUppercase s) = toAsciiUppercase s := by
  simp [toAsciiUppercase, Function.comp_def]

theorem paletteColor_idem (h : (colorValue (paletteColor color)).isSome = true) :
    paletteColor (paletteColor color) = paletteColor color := by
  have htrim := trim_eq_self (not_isWhitespace_of_colorValue h)
  conv_lhs => rw [paletteColor, htrim, paletteColor]
  exact toAsciiUppercase_idem _

/-- A palette that is left as it is. -/
structure PaletteKept (colors : List String) : Prop where
  color : ∀ color ∈ colors, paletteColor color = color ∧ (colorValue color).isSome = true
  nodup : colors.Nodup
  short : colors.length ≤ maxSavedColors

theorem keepColors_kept (colors : List String)
    (hcolor : ∀ color ∈ kept, paletteColor color = color ∧ (colorValue color).isSome = true)
    (hnodup : kept.Nodup) :
    (∀ color ∈ keepColors kept colors,
      paletteColor color = color ∧ (colorValue color).isSome = true) ∧
      (keepColors kept colors).Nodup := by
  induction colors generalizing kept with
  | nil => exact ⟨hcolor, hnodup⟩
  | cons color colors ih =>
    rw [keepColors, List.foldl_cons]
    dsimp only
    split_ifs with h
    · rw [Bool.and_eq_true, Bool.not_eq_true'] at h
      obtain ⟨hvalue, hnew⟩ := h
      refine ih ?_ (List.nodup_append.mpr ⟨hnodup, by simp, ?_⟩)
      · intro other ho
        obtain ho | ho := List.mem_append.mp ho
        · exact hcolor other ho
        · rw [List.mem_singleton.mp ho]
          exact ⟨paletteColor_idem hvalue, hvalue⟩
      · rintro other ho last hlast rfl
        rw [List.mem_singleton] at hlast
        rw [← hlast] at hnew
        simp [ho] at hnew
    · exact ih hcolor hnodup

theorem keepColors_eq
    (hcolor : ∀ color ∈ colors, paletteColor color = color ∧ (colorValue color).isSome = true)
    (hnodup : (kept ++ colors).Nodup) : keepColors kept colors = kept ++ colors := by
  induction colors generalizing kept with
  | nil => exact (List.append_nil kept).symm
  | cons color colors ih =>
    obtain ⟨⟨hsame, hvalue⟩, hcolors⟩ := List.forall_mem_cons.mp hcolor
    have hnew : kept.contains color = false := by
      rw [List.contains_eq_mem, decide_eq_false_iff_not]
      intro hmem
      exact (List.nodup_append.mp hnodup).2.2 color hmem color List.mem_cons_self rfl
    rw [keepColors, List.foldl_cons]
    dsimp only
    rw [hsame, hvalue, hnew]
    have happend : kept ++ color :: colors = kept ++ [color] ++ colors := by simp
    rw [happend] at hnodup ⊢
    exact ih hcolors hnodup

theorem cleanPalette_eq_iff : cleanPalette colors = colors ↔ PaletteKept colors := by
  constructor
  · intro h
    obtain ⟨hcolor, hnodup⟩ := keepColors_kept colors (by simp : ∀ color ∈ ([] : List String),
      paletteColor color = color ∧ (colorValue color).isSome = true) .nil
    have hsub := List.take_sublist maxSavedColors (keepColors [] colors)
    rw [← cleanPalette, h] at hsub
    refine ⟨fun color hc => hcolor color (hsub.mem hc), hnodup.sublist hsub, ?_⟩
    have := List.length_take_le maxSavedColors (keepColors [] colors)
    rwa [← cleanPalette, h] at this
  · intro h
    have hnodup : ([] ++ colors).Nodup := h.nodup
    rw [cleanPalette, keepColors_eq h.color hnodup, List.nil_append,
      List.take_of_length_le h.short]

/-! ## Looks -/

theorem clampFontSize_idem (size : ℕ) :
    clampFontSize (clampFontSize size) = clampFontSize size := by
  unfold clampFontSize
  split_ifs <;> omega

theorem clean_idem (look : ChannelLook) : look.clean.clean = look.clean := by
  have hcolor : ∀ color, ChannelLook.cleanColor (ChannelLook.cleanColor color) =
      ChannelLook.cleanColor color := by
    intro color
    simp [ChannelLook.cleanColor, Option.filter_filter]
  have hpath : ∀ path, ChannelLook.cleanPath (ChannelLook.cleanPath path) =
      ChannelLook.cleanPath path := by
    intro path
    simp [ChannelLook.cleanPath, Option.filter_filter]
  have hopacity : ∀ opacity : Option ℕ,
      (opacity.map (min · 100)).map (min · 100) = opacity.map (min · 100) := by
    intro opacity
    simp [Function.comp_def]
  simp [ChannelLook.clean, hcolor, hpath, hopacity, clampFontSize_idem]

/-- Looks that are left as they are. -/
structure LooksKept (looks : List ChannelLook) : Prop where
  look : ∀ look ∈ looks, look.server ≠ "" ∧ validCharsetChannel look.channel = true ∧
    look.clean = look ∧ look.isSet = true
  short : looks.length ≤ maxChannelLooks

theorem cleanChannelLooks_eq_iff : cleanChannelLooks looks = looks ↔ LooksKept looks := by
  constructor
  · intro h
    have hall : ∀ look ∈ cleanChannelLooks looks, look.server ≠ "" ∧
        validCharsetChannel look.channel = true ∧ look.clean = look ∧ look.isSet = true := by
      intro look hl
      obtain ⟨hl, hset⟩ := List.mem_filter.mp (List.mem_of_mem_take hl)
      obtain ⟨raw, hraw, rfl⟩ := List.mem_map.mp hl
      have hkeep := (List.mem_filter.mp hraw).2
      rw [Bool.and_eq_true, decide_eq_true_eq] at hkeep
      exact ⟨hkeep.1, hkeep.2, clean_idem raw, hset⟩
    rw [h] at hall
    refine ⟨hall, ?_⟩
    conv_lhs => rw [← h]
    exact List.length_take_le ..
  · intro h
    have husable : looks.filter (fun look => look.server ≠ "" && validCharsetChannel look.channel) =
        looks := by
      rw [List.filter_eq_self]
      intro look hl
      obtain ⟨hserver, hvalid, -⟩ := h.look look hl
      simp [hserver, hvalid]
    have hclean : looks.map ChannelLook.clean = looks := by
      conv_rhs => rw [← List.map_id looks]
      exact List.map_congr_left fun look hl => (h.look look hl).2.2.1
    have hset : looks.filter ChannelLook.isSet = looks :=
      List.filter_eq_self.mpr fun look hl => (h.look look hl).2.2.2
    rw [cleanChannelLooks, husable, hclean, hset, List.take_of_length_le h.short]

theorem normalize_eq_iff : a.normalize = a ↔
    PaletteKept a.savedColors ∧ a.clampFontSizes = a ∧ LooksKept a.channelLooks := by
  rw [← cleanPalette_eq_iff, ← cleanChannelLooks_eq_iff]
  obtain ⟨⟩ := a
  simp only [Appearance.normalize, Appearance.clampFontSizes, Appearance.mk.injEq, true_and,
    and_true]
  tauto

/-! ## One call -/

/-- A call that changes what the user set. -/
inductive AppearanceCall where
  | saveColor (color : String)
  | removeSavedColor (color : String)
  | setChannelLook (look : ChannelLook)

variable {same : String → String → String → Bool} {call : AppearanceCall}

def AppearanceCall.apply (same : String → String → String → Bool) (a : Appearance) :
    AppearanceCall → Appearance × Except String Unit
  | .saveColor color => a.saveColor color
  | .removeSavedColor color => (a.removeSavedColor color, .ok ())
  | .setChannelLook look => a.setChannelLook look (same look.server)

def AppearanceCall.Named : AppearanceCall → Prop
  | .setChannelLook look => look.server ≠ ""
  | _ => True

def AppearanceCall.Unsigned : AppearanceCall → Prop
  | .saveColor color => ¬IsSignedColor (paletteColor color)
  | .setChannelLook look => ∀ color ∈ look.colors, ¬IsSignedColor color
  | .removeSavedColor _ => True

def SameChannel (same : String → String → String → Bool) (look other : ChannelLook) : Prop :=
  look.server = other.server ∧ same look.server look.channel other.channel = true

def OneLookEach (same : String → String → String → Bool) (a : Appearance) : Prop :=
  a.channelLooks.Pairwise fun look other => ¬SameChannel same look other

/-- What the user set survives a restart. -/
structure Survives (same : String → String → String → Bool) (a : Appearance) : Prop where
  normal : a.normalize = a
  looks : OneLookEach same a
  palette : a.savedColors.length ≤ maxSavedColors ∧ a.savedColors.Nodup
  colors : ∀ color ∈ a.colors, IsColor color

theorem setChannelLook_cases (a : Appearance) (look : ChannelLook)
    (sameIn : String → String → Bool) :
    (∃ e, a.setChannelLook look sameIn = (a, .error e)) ∨
      validCharsetChannel look.channel = true ∧ ∃ looks,
        a.setChannelLook look sameIn = ({ a with channelLooks := looks }, .ok ()) ∧
        ((∃ row old, a.channelLooks[row]? = some old ∧
            isLookOf sameIn look.server look.channel old = true ∧ look.clean.isSet = true ∧
            looks = a.channelLooks.set row look.clean) ∨
          looks.Sublist a.channelLooks ∨
          (∀ old ∈ a.channelLooks, isLookOf sameIn look.server look.channel old = false) ∧
            look.clean.isSet = true ∧ a.channelLooks.length < maxChannelLooks ∧
            looks = a.channelLooks ++ [look.clean]) := by
  have hserver : look.clean.server = look.server := rfl
  have hchannel : look.clean.channel = look.channel := rfl
  unfold Appearance.setChannelLook
  dsimp only
  by_cases hvalid : validCharsetChannel look.channel = true
  · rw [hvalid, Bool.not_true, if_neg Bool.false_ne_true, hserver, hchannel]
    cases hrow : a.channelLooks.findIdx? (isLookOf sameIn look.server look.channel) with
    | some row =>
      obtain ⟨hlt, hold, -⟩ := List.findIdx?_eq_some_iff_getElem.mp hrow
      cases hset : look.clean.isSet with
      | true =>
        exact .inr ⟨rfl, _, rfl, .inl ⟨row, _, List.getElem?_eq_getElem hlt, hold, rfl, rfl⟩⟩
      | false => exact .inr ⟨rfl, _, rfl, .inr (.inl (List.eraseIdx_sublist ..))⟩
    | none =>
      have hnone := List.findIdx?_eq_none_iff.mp hrow
      cases hset : look.clean.isSet with
      | true =>
        dsimp only
        split_ifs with hfull
        · exact .inl ⟨_, rfl⟩
        · exact .inr ⟨rfl, _, rfl, .inr (.inr ⟨hnone, rfl, by omega, rfl⟩)⟩
      | false => exact .inr ⟨rfl, _, rfl, .inr (.inl (List.Sublist.refl _))⟩
  · rw [Bool.eq_false_iff.mpr hvalid]
    exact .inl ⟨_, rfl⟩

theorem apply_error {e : String} (h : (call.apply same a).2 = .error e) :
    (call.apply same a).1 = a := by
  cases call with
  | saveColor color =>
    simp only [AppearanceCall.apply, Appearance.saveColor] at h ⊢
    split_ifs at h ⊢ <;> rfl
  | removeSavedColor color => cases h
  | setChannelLook look =>
    rw [AppearanceCall.apply] at h ⊢
    obtain ⟨e, heq⟩ | ⟨-, looks, heq, -⟩ := setChannelLook_cases a look (same look.server)
    · rw [heq]
    · rw [heq] at h
      cases h

theorem PaletteKept.save (h : PaletteKept a.savedColors) (color : String) :
    (a.saveColor color).1 = a ∨ (colorValue (paletteColor color)).isSome = true ∧
      (a.saveColor color).1 = { a with savedColors := a.savedColors ++ [paletteColor color] } ∧
      PaletteKept (a.savedColors ++ [paletteColor color]) := by
  unfold Appearance.saveColor
  dsimp only
  split_ifs with hnone hmem hfull
  · exact .inl rfl
  · exact .inl rfl
  · exact .inl rfl
  · have hvalue : (colorValue (paletteColor color)).isSome = true := by
      simpa [Option.isNone_iff_eq_none, Option.isSome_iff_ne_none] using hnone
    refine .inr ⟨hvalue, rfl, ?_, ?_, ?_⟩
    · intro other ho
      obtain ho | ho := List.mem_append.mp ho
      · exact h.color other ho
      · rw [List.mem_singleton.mp ho]
        exact ⟨paletteColor_idem hvalue, hvalue⟩
    · refine List.nodup_append.mpr ⟨h.nodup, by simp, ?_⟩
      rintro other ho last hlast rfl
      rw [List.mem_singleton] at hlast
      exact hmem (by simpa [← hlast] using ho)
    · rw [List.length_append, List.length_singleton]
      omega

theorem PaletteKept.sublist (h : PaletteKept colors) (hs : kept.Sublist colors) :
    PaletteKept kept :=
  ⟨fun color hc => h.color color (hs.mem hc), h.nodup.sublist hs, hs.length_le.trans h.short⟩

theorem clean_colors_subset : look.clean.colors ⊆ look.colors := by
  have hcolor : ∀ c : Option String, (ChannelLook.cleanColor c).toList ⊆ c.toList := by
    intro c
    cases c with
    | none => exact List.Subset.refl _
    | some c =>
      rw [ChannelLook.cleanColor, Option.filter_some]
      split_ifs <;> simp
  intro color hmem
  simp only [ChannelLook.colors, ChannelLook.clean, List.mem_append] at hmem ⊢
  obtain (h | h) | h := hmem
  · exact .inl (.inl (hcolor _ h))
  · exact .inl (.inr (hcolor _ h))
  · exact .inr (hcolor _ h)

theorem colorValue_of_clean (h : look.clean = look) (hmem : color ∈ look.colors) :
    (colorValue color).isSome = true := by
  have hcolor : ∀ c : Option String, color ∈ (ChannelLook.cleanColor c).toList →
      (colorValue color).isSome = true := by
    intro c hc
    rw [ChannelLook.cleanColor, Option.mem_toList, Option.filter_eq_some_iff] at hc
    exact hc.2
  rw [← h] at hmem
  simp only [ChannelLook.colors, ChannelLook.clean, List.mem_append] at hmem
  obtain (h | h) | h := hmem <;> exact hcolor _ h

theorem pairwise_set {α : Type*} {R : α → α → Prop} {l : List α} {i : ℕ} {x y : α}
    (hsymm : ∀ a b, R a b → R b a) (h : l.Pairwise R) (hi : l[i]? = some x)
    (hxy : ∀ b, R x b → R y b) : (l.set i y).Pairwise R := by
  induction l generalizing i with
  | nil => exact .nil
  | cons a l ih =>
    obtain ⟨ha, hl⟩ := List.pairwise_cons.mp h
    cases i with
    | zero =>
      rw [List.getElem?_cons_zero, Option.some.injEq] at hi
      subst hi
      exact List.pairwise_cons.mpr ⟨fun b hb => hxy b (ha b hb), hl⟩
    | succ i =>
      rw [List.getElem?_cons_succ] at hi
      refine List.pairwise_cons.mpr ⟨?_, ih hl hi⟩
      intro b hb
      obtain hb | rfl := List.mem_or_eq_of_mem_set hb
      · exact ha b hb
      · exact hsymm _ _ (hxy _ (hsymm _ _ (ha x (List.mem_of_getElem? hi))))

/-! ## Runs -/

/-- An appearance whose colors can be used, as every call leaves it. -/
structure Sound (same : String → String → String → Bool) (a : Appearance) : Prop where
  palette : PaletteKept a.savedColors
  sizes : a.clampFontSizes = a
  looksKept : LooksKept a.channelLooks
  each : OneLookEach same a
  valid : a.validate = .ok ()
  unsigned : ∀ color ∈ a.colors, ¬IsSignedColor color

theorem mem_colors : color ∈ a.colors ↔
    (color ∈ a.themeColors.map Prod.snd ∨
      color ∈ (a.linkBackgrounds.map Prod.snd).filter (· ≠ "")) ∨
      color ∈ a.savedColors ∨ ∃ look ∈ a.channelLooks, color ∈ look.colors := by
  simp only [Appearance.colors, List.mem_append, List.mem_flatMap, or_assoc]

theorem colorValue_of_validate (h : a.validate = .ok ())
    (hmem : color ∈ a.themeColors.map Prod.snd ∨
      color ∈ (a.linkBackgrounds.map Prod.snd).filter (· ≠ "")) :
    (colorValue color).isSome = true := by
  unfold Appearance.validate at h
  split at h
  · cases h
  · rename_i htheme
    split at h
    · cases h
    · rename_i hlink
      obtain hmem | hmem := hmem
      · obtain ⟨row, hrow, rfl⟩ := List.mem_map.mp hmem
        simpa [Option.isSome_iff_ne_none] using List.find?_eq_none.mp htheme row hrow
      · obtain ⟨hmem, hset⟩ := List.mem_filter.mp hmem
        obtain ⟨row, hrow, rfl⟩ := List.mem_map.mp hmem
        have := List.find?_eq_none.mp hlink row hrow
        rw [decide_eq_true_eq] at hset
        simpa [hset, Option.isSome_iff_ne_none] using this

theorem Sound.survives (h : Sound same a) : Survives same a where
  normal := normalize_eq_iff.mpr ⟨h.palette, h.sizes, h.looksKept⟩
  looks := h.each
  palette := ⟨h.palette.short, h.palette.nodup⟩
  colors := by
    intro color hmem
    refine isColor_of_colorValue ?_ (h.unsigned color hmem)
    obtain hmem | hmem | ⟨look, hlook, hmem⟩ := mem_colors.mp hmem
    · exact colorValue_of_validate h.valid hmem
    · exact (h.palette.color color hmem).2
    · exact colorValue_of_clean (h.looksKept.look look hlook).2.2.1 hmem

theorem Sound.with_palette (h : Sound same a) (hkept : PaletteKept colors)
    (hcolors : ∀ color ∈ colors, color ∈ a.savedColors ∨ ¬IsSignedColor color) :
    Sound same { a with savedColors := colors } where
  palette := hkept
  sizes := by
    calc ({ a with savedColors := colors } : Appearance).clampFontSizes
        = { a.clampFontSizes with savedColors := colors } := rfl
      _ = _ := by rw [h.sizes]
  looksKept := h.looksKept
  each := h.each
  valid := h.valid
  unsigned := by
    intro color hmem
    obtain hmem | hmem | hmem := mem_colors.mp hmem
    · exact h.unsigned color (mem_colors.mpr (.inl hmem))
    · obtain hold | hnew := hcolors color hmem
      · exact h.unsigned color (mem_colors.mpr (.inr (.inl hold)))
      · exact hnew
    · exact h.unsigned color (mem_colors.mpr (.inr (.inr hmem)))

theorem Sound.with_looks (h : Sound same a) (hkept : LooksKept looks)
    (heach : looks.Pairwise fun look other => ¬SameChannel same look other)
    (hlooks : ∀ look ∈ looks, look ∈ a.channelLooks ∨
      ∀ color ∈ look.colors, ¬IsSignedColor color) :
    Sound same { a with channelLooks := looks } where
  palette := h.palette
  sizes := by
    calc ({ a with channelLooks := looks } : Appearance).clampFontSizes
        = { a.clampFontSizes with channelLooks := looks } := rfl
      _ = _ := by rw [h.sizes]
  looksKept := hkept
  each := heach
  valid := h.valid
  unsigned := by
    intro color hmem
    obtain hmem | hmem | ⟨look, hlook, hmem⟩ := mem_colors.mp hmem
    · exact h.unsigned color (mem_colors.mpr (.inl hmem))
    · exact h.unsigned color (mem_colors.mpr (.inr (.inl hmem)))
    · obtain hold | hnew := hlooks look hlook
      · exact h.unsigned color (mem_colors.mpr (.inr (.inr ⟨look, hold, hmem⟩)))
      · exact hnew color hmem

theorem Sound.setChannelLook (hequiv : ∀ server, Equivalence fun x y => same server x y = true)
    (h : Sound same a) (hserver : look.server ≠ "")
    (hlook : ∀ color ∈ look.colors, ¬IsSignedColor color) :
    Sound same (a.setChannelLook look (same look.server)).1 := by
  have hunsigned : ∀ color ∈ look.clean.colors, ¬IsSignedColor color :=
    fun color hc => hlook color (clean_colors_subset hc)
  have hsymm : ∀ x y, ¬SameChannel same x y → ¬SameChannel same y x := by
    rintro x y hxy ⟨hserver, hsame⟩
    refine hxy ⟨hserver.symm, ?_⟩
    rw [← hserver]
    exact (hequiv _).symm hsame
  obtain ⟨e, heq⟩ | ⟨hvalid, looks, heq, hcases⟩ := setChannelLook_cases a look (same look.server)
  · rwa [heq]
  rw [heq]
  dsimp only
  obtain ⟨row, old, hrow, hold, hset, rfl⟩ | hsub | ⟨hnone, hset, hshort, rfl⟩ := hcases
  · rw [isLookOf, Bool.and_eq_true, decide_eq_true_eq] at hold
    obtain ⟨hof, hsame⟩ := hold
    have hmem : ∀ other ∈ a.channelLooks.set row look.clean,
        other ∈ a.channelLooks ∨ other = look.clean := fun other => List.mem_or_eq_of_mem_set
    refine h.with_looks ⟨?_, ?_⟩ (pairwise_set hsymm h.each hrow ?_) ?_
    · intro other ho
      obtain ho | rfl := hmem other ho
      · exact h.looksKept.look other ho
      · exact ⟨hserver, hvalid, clean_idem look, hset⟩
    · rw [List.length_set]
      exact h.looksKept.short
    · rintro other hother ⟨hs, hc⟩
      refine hother ⟨hof.trans hs, ?_⟩
      rw [hof]
      exact (hequiv _).trans hsame hc
    · intro other ho
      obtain ho | rfl := hmem other ho
      · exact .inl ho
      · exact .inr hunsigned
  · refine h.with_looks ⟨fun other ho => h.looksKept.look other (hsub.mem ho),
      hsub.length_le.trans h.looksKept.short⟩ (h.each.sublist hsub) ?_
    exact fun other ho => .inl (hsub.mem ho)
  · have hmem : ∀ other ∈ a.channelLooks ++ [look.clean],
        other ∈ a.channelLooks ∨ other = look.clean := by simp
    refine h.with_looks ⟨?_, ?_⟩ (List.pairwise_append.mpr ⟨h.each, by simp, ?_⟩) ?_
    · intro other ho
      obtain ho | rfl := hmem other ho
      · exact h.looksKept.look other ho
      · exact ⟨hserver, hvalid, clean_idem look, hset⟩
    · rw [List.length_append, List.length_singleton]
      omega
    · intro other ho last hlast
      rw [List.mem_singleton.mp hlast]
      rintro ⟨hs, hc⟩
      have hfalse := hnone other ho
      have hs : other.server = look.server := hs
      have hc : same other.server other.channel look.channel = true := hc
      rw [hs] at hc
      rw [isLookOf, hs, hc, Bool.and_true, decide_eq_false_iff_not] at hfalse
      exact hfalse rfl
    · intro other ho
      obtain ho | rfl := hmem other ho
      · exact .inl ho
      · exact .inr hunsigned

theorem Sound.apply (hequiv : ∀ server, Equivalence fun x y => same server x y = true)
    (h : Sound same a) (hnamed : call.Named) (hunsigned : call.Unsigned) :
    Sound same (call.apply same a).1 := by
  cases call with
  | saveColor color =>
    obtain heq | ⟨-, heq, hkept⟩ := h.palette.save color
    · rw [AppearanceCall.apply, heq]
      exact h
    · rw [AppearanceCall.apply, heq]
      refine h.with_palette hkept ?_
      intro other ho
      obtain ho | ho := List.mem_append.mp ho
      · exact .inl ho
      · rw [List.mem_singleton.mp ho]
        exact .inr hunsigned
  | removeSavedColor color =>
    exact h.with_palette (h.palette.sublist List.filter_sublist)
      fun other ho => .inl (List.mem_of_mem_filter ho)
  | setChannelLook look => exact h.setChannelLook hequiv hnamed hunsigned

def applyAll (same : String → String → String → Bool) (a : Appearance)
    (calls : List AppearanceCall) : Appearance :=
  calls.foldl (fun a call => (call.apply same a).1) a

theorem Sound.applyAll (hequiv : ∀ server, Equivalence fun x y => same server x y = true)
    {calls : List AppearanceCall} (h : Sound same a)
    (hcalls : ∀ call ∈ calls, call.Named ∧ call.Unsigned) :
    Sound same (applyAll same a calls) := by
  induction calls generalizing a with
  | nil => exact h
  | cons call calls ih =>
    obtain ⟨⟨hnamed, hunsigned⟩, hrest⟩ := List.forall_mem_cons.mp hcalls
    exact ih (h.apply hequiv hnamed hunsigned) hrest

/-- What the user set survives a restart, where no color has a sign and no channel has two looks
to begin with, and a call that fails changes nothing. -/
theorem appearance_survives (same : String → String → String → Bool) (a : Appearance)
    (calls : List AppearanceCall)
    (hequiv : ∀ server, Equivalence fun x y => same server x y = true)
    (hnormal : a.normalize = a) (hvalid : a.validate = .ok ())
    (hnamed : ∀ call ∈ calls, call.Named)
    (hsigns : (∀ color ∈ a.colors, ¬IsSignedColor color) ∧ ∀ call ∈ calls, call.Unsigned)
    (heach : OneLookEach same a) :
    Survives same (applyAll same a calls) ∧
      ∀ (call : AppearanceCall) (e : String),
        (call.apply same (applyAll same a calls)).2 = .error e →
        (call.apply same (applyAll same a calls)).1 = applyAll same a calls := by
  obtain ⟨hpalette, hsizes, hlooks⟩ := normalize_eq_iff.mp hnormal
  have hsound : Sound same a := ⟨hpalette, hsizes, hlooks, heach, hvalid, hsigns.1⟩
  refine ⟨(hsound.applyAll hequiv fun call hc => ⟨hnamed call hc, hsigns.2 call hc⟩).survives, ?_⟩
  exact fun call e h => apply_error h

def sameName (_server channel other : String) : Bool := channel = other

theorem sameName_equivalence (server : String) :
    Equivalence fun x y => sameName server x y = true where
  refl x := by simp [sameName]
  symm h := by
    rw [sameName, decide_eq_true_eq] at h ⊢
    exact h.symm
  trans h h' := by
    rw [sameName, decide_eq_true_eq] at h h' ⊢
    exact h.trans h'

theorem not_isSignedColor (h : value.toList[1]? ≠ some '+') : ¬IsSignedColor value := by
  rintro ⟨digits, hdigits, -⟩
  exact h (by rw [hdigits]; rfl)

def usualCalls : List AppearanceCall :=
  [.saveColor " #ff8800",
    .setChannelLook { server := "s", channel := "#rust", fontSize := 60, text := some "#FFFFFF" },
    .removeSavedColor "#FF8800"]

theorem appearance_survives_saved :
    Survives sameName (applyAll sameName {} usualCalls) ∧
      ∀ (call : AppearanceCall) (e : String),
        (call.apply sameName (applyAll sameName {} usualCalls)).2 = .error e →
        (call.apply sameName (applyAll sameName {} usualCalls)).1 =
          applyAll sameName {} usualCalls := by
  refine appearance_survives _ _ _ sameName_equivalence (by decide +kernel) rfl ?_ ⟨?_, ?_⟩ .nil
  · simp [usualCalls, AppearanceCall.Named]
  · have hsecond : ∀ color ∈ ({} : Appearance).colors, color.toList[1]? ≠ some '+' := by
      decide +kernel
    exact fun color hmem => not_isSignedColor (hsecond color hmem)
  · intro call hc
    simp only [usualCalls, List.mem_cons, List.not_mem_nil, or_false] at hc
    obtain rfl | rfl | rfl := hc
    · exact not_isSignedColor (by decide +kernel)
    · intro color hmem
      have hwhite : color = "#FFFFFF" := by simpa [ChannelLook.colors] using hmem
      rw [hwhite]
      exact not_isSignedColor (by decide +kernel)
    · trivial

def twoLooks : List ChannelLook :=
  [{ server := "s", channel := "#rust", fontSize := 12 },
    { server := "s", channel := "#rust", fontSize := 14 }]

/-- A sign is taken for a digit of a color, and settings with two looks of a channel stay. -/
theorem signed_color_saved :
    ({} : Appearance).normalize = {} ∧ ({} : Appearance).validate = .ok () ∧
      ¬Survives sameName (applyAll sameName {} [.saveColor "#+12345"]) ∧
    ({ channelLooks := twoLooks } : Appearance).normalize = { channelLooks := twoLooks } ∧
      ({ channelLooks := twoLooks } : Appearance).validate = .ok () ∧
      ¬Survives sameName (applyAll sameName { channelLooks := twoLooks } []) := by
  refine ⟨by decide +kernel, rfl, ?_, by decide +kernel, rfl, ?_⟩
  · intro h
    have hsaved : "#+12345" ∈
        (applyAll sameName {} [.saveColor "#+12345"]).colors := by decide +kernel
    obtain ⟨digits, hdigits, -, hall⟩ := h.colors _ hsaved
    have hplus : '+' ∈ digits := by
      have hlist : "#+12345".toList = ['#', '+', '1', '2', '3', '4', '5'] := by decide +kernel
      rw [hlist, List.cons.injEq] at hdigits
      rw [← hdigits.2]
      exact List.mem_cons_self
    exact absurd (hall _ hplus) (by decide +kernel)
  · intro h
    have heach : twoLooks.Pairwise fun look other => ¬SameChannel sameName look other := h.looks
    refine (List.pairwise_cons.mp heach).1 _ List.mem_cons_self ⟨rfl, by decide +kernel⟩

end CayenChat.Storage
