import CayenChat.Lib.Radix
import CayenChat.Storage.Profile

/-! # Appearance settings

Colors, sizes, the palette and the looks of single channels, with what is cleaned when they are read
and what is checked when they are used. The channels' sameness is a parameter.
-/

namespace CayenChat.Storage
open Radix

/-- The number of a color, `#RRGGBB`. -/
def colorValue (value : String) : Option ℕ :=
  (stripFirst '#' value).bind fun hex =>
    if byteLen hex = 6 then fromStrRadix (2 ^ 32) 16 hex.toList else none

def maxSavedColors : ℕ := 24
def maxChannelLooks : ℕ := 256
def maxWallpaperPathBytes : ℕ := 1024
def minUrlTooltipOpacity : ℕ := 20

def clampFontSize (size : ℕ) : ℕ := if size = 0 then 0 else max 8 (min size 40)

def clampLineHeightPercent (percent : ℕ) : ℕ := max 100 (min percent 200)

/-- What differs in the log of one channel. -/
structure ChannelLook where
  server : String
  channel : String
  fontSize : ℕ := 0
  background : Option String := none
  alternate : Option String := none
  text : Option String := none
  wallpaper : Option String := none
  wallpaperOpacity : Option ℕ := none
  deriving DecidableEq

namespace ChannelLook

def isSet (self : ChannelLook) : Bool :=
  self.fontSize ≠ 0 || self.background.isSome || self.alternate.isSome || self.text.isSome ||
    self.wallpaper.isSome || self.wallpaperOpacity.isSome

def cleanColor (color : Option String) : Option String :=
  color.filter fun c => (colorValue c).isSome

def cleanPath (path : Option String) : Option String :=
  path.filter fun p => !(trim p == "" || maxWallpaperPathBytes < byteLen p)

/-- Makes every field usable. -/
def clean (self : ChannelLook) : ChannelLook :=
  { self with
    fontSize := clampFontSize self.fontSize
    background := cleanColor self.background
    alternate := cleanColor self.alternate
    text := cleanColor self.text
    wallpaper := cleanPath self.wallpaper
    wallpaperOpacity := self.wallpaperOpacity.map (min · 100) }

def colors (self : ChannelLook) : List String :=
  self.background.toList ++ self.alternate.toList ++ self.text.toList

end ChannelLook

structure DarkColors where
  memberListBackground : String := "#1F2124"
  channelTreeBackground : String := "#1D2630"
  channelLogBackground : String := "#1F2124"
  channelLogAlternate : String := "#272B31"
  channelEventColor : String := "#6CC46C"
  noticeColor : String := "#8C949C"
  highlightColor : String := "#EFA0BE"
  combinedLogBackground : String := "#24272B"
  combinedLogAlternate : String := "#2C3036"
  urlTooltipColor : String := "#1B1D20"
  linkColor : String := "#78AAFF"
  linkBackground : String := ""
  urlTooltipLinkColor : String := "#78AAFF"
  urlTooltipTextColor : String := "#E3E6EA"
  deriving DecidableEq

structure Appearance where
  memberListBackground : String := "#FFFFFF"
  channelTreeBackground : String := "#EAF3FF"
  channelLogBackground : String := "#FFFFFF"
  channelLogAlternate : String := "#F2F5FF"
  channelEventColor : String := "#007D00"
  noticeColor : String := "#7A838C"
  highlightColor : String := "#D46A8E"
  combinedLogBackground : String := "#F9FAFB"
  combinedLogAlternate : String := "#F2F5FF"
  urlTooltipColor : String := "#1B1D20"
  urlTooltipLinkColor : String := "#78AAFF"
  urlTooltipTextColor : String := "#E3E6EA"
  urlTooltipOpacity : ℕ := 80
  linkColor : String := "#0645AD"
  linkBackground : String := ""
  channelLogFontSize : ℕ := 0
  combinedLogFontSize : ℕ := 0
  memberListFontSize : ℕ := 0
  channelTreeFontSize : ℕ := 0
  inputFontSize : ℕ := 0
  timeFontSize : ℕ := 0
  channelLogLineHeight : ℕ := 162
  combinedLogLineHeight : ℕ := 162
  dark : DarkColors := {}
  savedColors : List String := []
  channelLooks : List ChannelLook := []
  deriving DecidableEq

namespace Appearance

def isLookOf (same : String → String → Bool) (server channel : String) (look : ChannelLook) :
    Bool :=
  look.server = server && same look.channel channel

/-- Replaces the look of a channel; one with nothing set removes it. -/
def setChannelLook (self : Appearance) (look : ChannelLook) (same : String → String → Bool) :
    Appearance × Except String Unit :=
  if !validCharsetChannel look.channel then (self, .error "Invalid channel name.")
  else
    let look := look.clean
    match self.channelLooks.findIdx? (isLookOf same look.server look.channel), look.isSet with
    | some row, true => ({ self with channelLooks := self.channelLooks.set row look }, .ok ())
    | some row, false => ({ self with channelLooks := self.channelLooks.eraseIdx row }, .ok ())
    | none, true =>
      if maxChannelLooks ≤ self.channelLooks.length then
        (self, .error "At most 256 channels can have their own look.")
      else ({ self with channelLooks := self.channelLooks ++ [look] }, .ok ())
    | none, false => (self, .ok ())

def cleanChannelLooks (looks : List ChannelLook) : List ChannelLook :=
  (((looks.filter fun look => look.server ≠ "" && validCharsetChannel look.channel).map
    ChannelLook.clean).filter ChannelLook.isSet).take maxChannelLooks

def paletteColor (color : String) : String := toAsciiUppercase (trim color)

/-- Saves a color to the palette, once. -/
def saveColor (self : Appearance) (color : String) : Appearance × Except String Unit :=
  let color := paletteColor color
  if (colorValue color).isNone then (self, .error "Palette color must be #RRGGBB.")
  else if self.savedColors.contains color then (self, .ok ())
  else if maxSavedColors ≤ self.savedColors.length then
    (self, .error "The palette holds at most 24 colors.")
  else ({ self with savedColors := self.savedColors ++ [color] }, .ok ())

def removeSavedColor (self : Appearance) (color : String) : Appearance :=
  { self with
    savedColors := self.savedColors.filter fun saved => !eqIgnoreAsciiCase saved (trim color) }

/-- The palette entries that are kept of some, behind those kept before. -/
def keepColors (kept : List String) (colors : List String) : List String :=
  colors.foldl (fun kept color =>
    let color := paletteColor color
    if (colorValue color).isSome && !kept.contains color then kept ++ [color] else kept) kept

def cleanPalette (colors : List String) : List String := (keepColors [] colors).take maxSavedColors

def clampFontSizes (self : Appearance) : Appearance :=
  { self with
    channelLogFontSize := clampFontSize self.channelLogFontSize
    combinedLogFontSize := clampFontSize self.combinedLogFontSize
    memberListFontSize := clampFontSize self.memberListFontSize
    channelTreeFontSize := clampFontSize self.channelTreeFontSize
    inputFontSize := clampFontSize self.inputFontSize
    timeFontSize := clampFontSize self.timeFontSize
    channelLogLineHeight := clampLineHeightPercent self.channelLogLineHeight
    combinedLogLineHeight := clampLineHeightPercent self.combinedLogLineHeight }

def normalize (self : Appearance) : Appearance :=
  let self := { self with savedColors := cleanPalette self.savedColors }
  let self := self.clampFontSizes
  { self with channelLooks := cleanChannelLooks self.channelLooks }

/-- The colors of both themes, by name. -/
def themeColors (self : Appearance) : List (String × String) :=
  [("Member list", self.memberListBackground), ("Channel tree", self.channelTreeBackground),
    ("Channel log", self.channelLogBackground),
    ("Channel log alternate", self.channelLogAlternate),
    ("System message", self.channelEventColor), ("Notice", self.noticeColor),
    ("Highlight", self.highlightColor), ("Combined log", self.combinedLogBackground),
    ("Combined log alternate", self.combinedLogAlternate),
    ("URL tooltip", self.urlTooltipColor), ("Dark URL tooltip", self.dark.urlTooltipColor),
    ("Link", self.linkColor), ("Dark link", self.dark.linkColor),
    ("URL tooltip link", self.urlTooltipLinkColor),
    ("Dark URL tooltip link", self.dark.urlTooltipLinkColor),
    ("URL tooltip text", self.urlTooltipTextColor),
    ("Dark URL tooltip text", self.dark.urlTooltipTextColor),
    ("Dark member list", self.dark.memberListBackground),
    ("Dark channel tree", self.dark.channelTreeBackground),
    ("Dark channel log", self.dark.channelLogBackground),
    ("Dark channel log alternate", self.dark.channelLogAlternate),
    ("Dark system message", self.dark.channelEventColor), ("Dark notice", self.dark.noticeColor),
    ("Dark highlight", self.dark.highlightColor),
    ("Dark combined log", self.dark.combinedLogBackground),
    ("Dark combined log alternate", self.dark.combinedLogAlternate)]

def linkBackgrounds (self : Appearance) : List (String × String) :=
  [("Link background", self.linkBackground), ("Dark link background", self.dark.linkBackground)]

def validate (self : Appearance) : Except String Unit :=
  match self.themeColors.find? fun (_, value) => (colorValue value).isNone with
  | some (label, _) => .error (label ++ " color must be #RRGGBB.")
  | none =>
    match self.linkBackgrounds.find? fun (_, value) =>
        value ≠ "" && (colorValue value).isNone with
    | some (label, _) => .error (label ++ " color must be #RRGGBB or empty.")
    | none =>
      if minUrlTooltipOpacity ≤ self.urlTooltipOpacity ∧ self.urlTooltipOpacity ≤ 100 then .ok ()
      else .error "URL tooltip opacity must be 20 to 100."

def colors (self : Appearance) : List String :=
  self.themeColors.map Prod.snd ++ (self.linkBackgrounds.map Prod.snd).filter (· ≠ "") ++
    self.savedColors ++ self.channelLooks.flatMap ChannelLook.colors

end Appearance

/-! ## Colors -/

def IsColor (value : String) : Prop :=
  ∃ digits, value.toList = '#' :: digits ∧ digits.length = 6 ∧ ∀ c ∈ digits, isDigit 16 c = true

def IsSignedColor (value : String) : Prop :=
  ∃ digits, value.toList = '#' :: '+' :: digits ∧ digits.length = 5 ∧
    ∀ c ∈ digits, isDigit 16 c = true

variable {value : String}

theorem stripFirst_eq_some {c : Char} {s rest : String} :
    stripFirst c s = some rest ↔ s.toList = c :: rest.toList := by
  unfold stripFirst
  split
  · simp_all
  · rename_i d tail heq
    rw [heq]
    split_ifs with h
    · subst h
      rw [Option.some.injEq, List.cons.injEq, ← String.toList_inj, String.toList_ofList]
      simp
    · simp [h]

theorem colorValue_isSome :
    (colorValue value).isSome = true ↔ IsColor value ∨ IsSignedColor value := by
  unfold colorValue
  constructor
  · intro h
    obtain ⟨n, hn⟩ := Option.isSome_iff_exists.mp h
    obtain ⟨hex, hhex, hn⟩ := Option.bind_eq_some_iff.mp hn
    rw [stripFirst_eq_some] at hhex
    split_ifs at hn with hlen
    have hsize : Utf8.size hex.toList = 6 := hlen
    have hshort := Utf8.length_le_size hex.toList
    have hbound : 16 ^ hex.toList.length ≤ 2 ^ 32 := by
      calc 16 ^ hex.toList.length ≤ 16 ^ 6 := Nat.pow_le_pow_right (by decide) (by omega)
        _ ≤ 2 ^ 32 := by decide
    obtain ⟨digits, hne, hcases, hall⟩ :=
      (fromStrRadix_isSome (by decide) hbound).mp (Option.isSome_iff_exists.mpr ⟨n, hn⟩)
    have hdigits := size_digits hall
    obtain heq | heq := hcases
    · refine .inl ⟨digits, by rw [hhex, heq], ?_, hall⟩
      rw [heq] at hsize
      omega
    · refine .inr ⟨digits, by rw [hhex, heq], ?_, hall⟩
      have hplus : '+'.utf8Size = 1 := rfl
      rw [heq, Utf8.size_cons] at hsize
      omega
  · intro h
    obtain ⟨hex, hhex, hsize, digits, hne, hcases, hall⟩ : ∃ hex : List Char,
        value.toList = '#' :: hex ∧ Utf8.size hex = 6 ∧ ∃ digits, digits ≠ [] ∧
          (hex = digits ∨ hex = '+' :: digits) ∧ ∀ c ∈ digits, isDigit 16 c = true := by
      obtain ⟨digits, hvalue, hlen, hall⟩ | ⟨digits, hvalue, hlen, hall⟩ := h
      · refine ⟨digits, hvalue, by rw [size_digits hall, hlen], digits, ?_, .inl rfl, hall⟩
        rintro rfl
        cases hlen
      · refine ⟨'+' :: digits, hvalue, ?_, digits, ?_, .inr rfl, hall⟩
        · have hplus : '+'.utf8Size = 1 := rfl
          rw [Utf8.size_cons, size_digits hall, hlen, hplus]
        · rintro rfl
          cases hlen
    have hstrip : stripFirst '#' value = some (String.ofList hex) := by
      rw [stripFirst_eq_some, String.toList_ofList, hhex]
    have hlen : byteLen (String.ofList hex) = 6 := by
      rw [byteLen, String.toList_ofList]
      exact hsize
    have hshort := Utf8.length_le_size hex
    have hbound : 16 ^ hex.length ≤ 2 ^ 32 := by
      calc 16 ^ hex.length ≤ 16 ^ 6 := Nat.pow_le_pow_right (by decide) (by omega)
        _ ≤ 2 ^ 32 := by decide
    rw [hstrip, Option.bind_some, if_pos hlen, String.toList_ofList]
    exact (fromStrRadix_isSome (by decide) hbound).mpr ⟨digits, hne, hcases, hall⟩

theorem isColor_of_colorValue (h : (colorValue value).isSome = true) (hs : ¬IsSignedColor value) :
    IsColor value :=
  (colorValue_isSome.mp h).resolve_right hs

end CayenChat.Storage
