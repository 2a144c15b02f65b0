import CayenChat.Lib.Utf8

/-! # Avatar marks in real names

A client that has an avatar says so at the start of its real name, with KVIrc's codes, the
invisible ones or those a user typed. A name is a list of characters, and cutting it between
the bytes of one fails.
-/

namespace CayenChat.Avatars
open Utf8

def avatarBit : UInt8 := 4

/-- The real name sent at registration, with KVIrc's mark when an avatar is shared. -/
def realname (base : List Char) (advertise : Bool) : List Char :=
  if advertise then '\x03' :: Nat.toDigits 10 avatarBit.toNat ++ '\x0f' :: base else base

def textMarkPrefix : List Char := ['\\', 'x', '0', '3']
def textMarkSuffix : List Char := ['\\', 'x', '0', '3']

def invisibleMark : List Char := ['\x02', '\x16', '\x16', '\x02']

/-- The mark that a real name is sent with. -/
inductive RealnameMark
  | none
  | kvirc
  | invisible
  deriving DecidableEq, Repr

def stripPrefix (p s : List Char) : Option (List Char) :=
  if p <+: s then some (s.drop p.length) else none

/-- The digit of the typed mark at the start of a real name, and the length of the mark. -/
def textMark (realname : List Char) : Option (UInt8 × ℕ) := do
  let rest ← stripPrefix textMarkPrefix realname
  match bytes rest with
  | [] => none
  | digit :: rest =>
    if (48 ≤ digit ∧ digit ≤ 57) ∧ bytes textMarkSuffix <+: rest then
      some (digit, size textMarkPrefix + 1 + size textMarkSuffix)
    else none

/-- The digit of KVIrc's mark at the start of a real name, and the length of the mark. -/
def kvircMark (realname : List Char) : Option (Option (UInt8 × ℕ)) :=
  match stripPrefix ['\x03'] realname with
  | none => some none
  | some rest =>
    match bytes rest with
    | [] => some none
    | digit :: _ =>
      if ¬(48 ≤ digit ∧ digit ≤ 55) then some none
      else do
        let (_, rest) ← split rest 1
        if ['\x0f'] <+: rest then some (some (digit, 3))
        else if ['\uFFFD'] <+: rest then some (some (digit, 2 + '\uFFFD'.utf8Size))
        else some none

/-- The real name behind the mark at its start. -/
def behindMark (realname : List Char) : Option (Option (List Char)) :=
  match stripPrefix invisibleMark realname with
  | some rest => some (some rest)
  | none => do
    match ← kvircMark realname with
    | some (_, len) => (split realname len).map fun (_, rest) => some rest
    | none =>
      match textMark realname with
      | some (_, len) => (split realname len).map fun (_, rest) => some rest
      | none => some none

/-- Whether a real name starts with a mark for an avatar. -/
def advertisesAvatar (realname : List Char) : Option Bool :=
  if invisibleMark <+: realname then some true
  else
    match textMark realname with
    | some (digit, _) => some (decide (52 ≤ digit ∧ digit ≤ 55))
    | none => do
      match ← kvircMark realname with
      | some (digit, _) => some (((digit - 48) &&& avatarBit) != 0)
      | none => some false

/-! ## Marks as they are written -/

/-- A real name, the digit of the mark at its start if that has one, and what is behind it. -/
inductive Leading : List Char → Option Char → List Char → Prop
  | invisible (rest : List Char) : Leading (invisibleMark ++ rest) none rest
  | kvirc {d e : Char} (rest : List Char) (hd : '0' ≤ d ∧ d ≤ '7')
    (he : e = '\x0f' ∨ e = '\uFFFD') :
    Leading ('\x03' :: d :: e :: rest) (some d) rest
  | text {d : Char} (rest : List Char) (hd : '0' ≤ d ∧ d ≤ '9') :
    Leading (textMarkPrefix ++ d :: (textMarkSuffix ++ rest)) (some d) rest

def Unmarked (s : List Char) : Prop := ∀ d rest, ¬Leading s d rest

variable {s p r rest base : List Char} {d : Option Char} {b : UInt8} {n : ℕ}

theorem Leading.length_lt (h : Leading s d r) : r.length < s.length := by
  cases h <;> simp [invisibleMark, textMarkPrefix, textMarkSuffix]
  all_goals omega

theorem stripPrefix_eq_some : stripPrefix p s = some r ↔ s = p ++ r := by
  unfold stripPrefix
  constructor
  · intro h
    split at h
    · next hp =>
      obtain ⟨t, rfl⟩ := hp
      simpa using h
    · cases h
  · rintro rfl
    simp

theorem stripPrefix_eq_none : stripPrefix p s = none ↔ ¬p <+: s := by
  simp [stripPrefix]

theorem le_toNat {c d : Char} : c ≤ d ↔ c.toNat ≤ d.toNat := by
  rw [Char.le_def, UInt32.le_iff_toNat_le]
  rfl

theorem bytes_eq_cons_digit {m : Char} (hm : m.toNat < 128) {bs : List UInt8} :
    (bytes s = b :: bs ∧ 48 ≤ b.toNat ∧ b.toNat ≤ m.toNat) ↔
      ∃ d s', s = d :: s' ∧ ('0' ≤ d ∧ d ≤ m) ∧ b = UInt8.ofNat d.toNat ∧ bytes s' = bs := by
  constructor
  · rintro ⟨h, hlow, hhigh⟩
    obtain ⟨d, s', rfl, hd, hbs⟩ := bytes_eq_cons_ascii (by omega) h
    refine ⟨d, s', rfl, ⟨?_, ?_⟩, ?_, hbs⟩
    · rw [le_toNat, hd]
      exact hlow
    · rw [le_toNat, hd]
      exact hhigh
    · rw [hd, UInt8.ofNat_toNat]
  · rintro ⟨d, s', rfl, ⟨hlow, hhigh⟩, rfl, rfl⟩
    rw [le_toNat] at hlow hhigh
    have hval : (UInt8.ofNat d.toNat).toNat = d.toNat := by
      rw [UInt8.toNat_ofNat']
      omega
    rw [hval, bytes_cons, encode_ascii (by omega)]
    exact ⟨rfl, hlow, hhigh⟩

theorem textMark_eq_some : textMark s = some (b, n) ↔ ∃ d rest,
    ('0' ≤ d ∧ d ≤ '9') ∧ s = textMarkPrefix ++ d :: (textMarkSuffix ++ rest) ∧
      b = UInt8.ofNat d.toNat ∧ n = 9 := by
  have hsuffix : ∀ c ∈ textMarkSuffix, c.toNat < 128 := by simp [textMarkSuffix]
  constructor
  · intro h
    obtain ⟨behind, hs, h⟩ := Option.bind_eq_some_iff.mp h
    rw [stripPrefix_eq_some] at hs
    cases hbytes : bytes behind with
    | nil =>
      rw [hbytes] at h
      cases h
    | cons digit bs =>
      rw [hbytes] at h
      simp only at h
      split at h
      · next hdigit =>
        obtain ⟨⟨hlow, hhigh⟩, hrest⟩ := hdigit
        cases h
        obtain ⟨d, s', rfl, hd, hb, rfl⟩ :=
          (bytes_eq_cons_digit (m := '9') (by decide)).mp ⟨hbytes, hlow, hhigh⟩
        obtain ⟨rest, rfl⟩ := (bytes_prefix_ascii hsuffix).mp hrest
        exact ⟨d, rest, hd, hs, hb, rfl⟩
      · cases h
  · rintro ⟨d, rest, hd, rfl, hb, rfl⟩
    obtain ⟨hbytes, hlow, hhigh⟩ := (bytes_eq_cons_digit (m := '9') (by decide)).mpr
      ⟨d, textMarkSuffix ++ rest, rfl, hd, hb, rfl⟩
    unfold textMark
    rw [stripPrefix_eq_some.mpr rfl, Option.bind_eq_bind, Option.bind_some, hbytes]
    simp only
    rw [if_pos ⟨⟨hlow, hhigh⟩, (bytes_prefix_ascii hsuffix).mpr (List.prefix_append ..)⟩]
    rfl

theorem utf8Size_of_ascii {c : Char} (hc : c.toNat < 128) : c.utf8Size = 1 := by
  rw [← String.length_utf8EncodeChar, encode_ascii hc]
  rfl

theorem kvircMark_cases (s : List Char) :
    (∃ d e rest, ('0' ≤ d ∧ d ≤ '7') ∧ (e = '\x0f' ∨ e = '\uFFFD') ∧ s = '\x03' :: d :: e :: rest ∧
      kvircMark s = some (some (UInt8.ofNat d.toNat, 2 + e.utf8Size))) ∨
    (kvircMark s = some none ∧ ∀ d e rest, '0' ≤ d ∧ d ≤ '7' → e = '\x0f' ∨ e = '\uFFFD' →
      s ≠ '\x03' :: d :: e :: rest) := by
  cases hs : stripPrefix ['\x03'] s with
  | none =>
    refine .inr ⟨by rw [kvircMark, hs], ?_⟩
    rintro d e rest - - rfl
    exact stripPrefix_eq_none.mp hs ⟨_, rfl⟩
  | some behind =>
    obtain rfl := stripPrefix_eq_some.mp hs
    by_cases hdigit : ∃ d s', behind = d :: s' ∧ '0' ≤ d ∧ d ≤ '7'
    · obtain ⟨d, s', rfl, hd⟩ := hdigit
      obtain ⟨hbytes, hlow, hhigh⟩ := (bytes_eq_cons_digit (m := '7') (by decide)).mpr
        ⟨d, s', rfl, hd, rfl, rfl⟩
      have hsize : size [d] = 1 :=
        utf8Size_of_ascii (Nat.lt_of_le_of_lt (le_toNat.mp hd.2) (by decide))
      have hsplit : split (d :: s') 1 = some ([d], s') := by
        rw [← hsize]
        exact split_append [d] s'
      have hcond : ¬¬(48 ≤ UInt8.ofNat d.toNat ∧ UInt8.ofNat d.toNat ≤ 55) :=
        not_not.mpr ⟨hlow, hhigh⟩
      have hmark : kvircMark ('\x03' :: d :: s') =
          if ['\x0f'] <+: s' then some (some (UInt8.ofNat d.toNat, 3))
          else if ['\uFFFD'] <+: s' then
            some (some (UInt8.ofNat d.toNat, 2 + '\uFFFD'.utf8Size))
          else some none := by
        unfold kvircMark
        rw [show '\x03' :: d :: s' = ['\x03'] ++ d :: s' from rfl, hs]
        simp only
        rw [hbytes]
        simp only
        rw [if_neg hcond, hsplit]
        rfl
      by_cases hsi : ['\x0f'] <+: s'
      · obtain ⟨rest, rfl⟩ := hsi
        refine .inl ⟨d, '\x0f', rest, hd, .inl rfl, rfl, ?_⟩
        rw [List.singleton_append, hmark, if_pos (List.prefix_append ..)]
        rfl
      by_cases hreplaced : ['\uFFFD'] <+: s'
      · obtain ⟨rest, rfl⟩ := hreplaced
        refine .inl ⟨d, '\uFFFD', rest, hd, .inr rfl, rfl, ?_⟩
        rw [List.singleton_append, hmark, if_neg hsi, if_pos (List.prefix_append ..)]
      refine .inr ⟨by rw [List.singleton_append, hmark, if_neg hsi, if_neg hreplaced], ?_⟩
      rintro d' e rest - (rfl | rfl) heq
      · exact hsi ⟨rest, (List.cons.inj (List.cons.inj heq).2).2.symm⟩
      · exact hreplaced ⟨rest, (List.cons.inj (List.cons.inj heq).2).2.symm⟩
    · refine .inr ⟨?_, ?_⟩
      · unfold kvircMark
        rw [hs]
        simp only
        cases hbytes : bytes behind with
        | nil => rfl
        | cons digit bs =>
          simp only
          rw [if_pos]
          rintro ⟨hlow, hhigh⟩
          obtain ⟨d, s', heq, hd, -⟩ :=
            (bytes_eq_cons_digit (m := '7') (by decide)).mp ⟨hbytes, hlow, hhigh⟩
          exact hdigit ⟨d, s', heq, hd⟩
      · rintro d e rest hd - heq
        exact hdigit ⟨d, e :: rest, (List.cons.inj heq).2, hd⟩

/-! ## Taking marks off -/

theorem behindMark_cases (s : List Char) :
    (∃ d rest, Leading s d rest ∧ behindMark s = some (some rest)) ∨
      (Unmarked s ∧ behindMark s = some none) := by
  unfold behindMark
  cases hs : stripPrefix invisibleMark s with
  | some rest =>
    obtain rfl := stripPrefix_eq_some.mp hs
    exact .inl ⟨none, rest, .invisible rest, rfl⟩
  | none =>
    simp only
    rcases kvircMark_cases s with ⟨d, e, rest, hd, he, rfl, hk⟩ | ⟨hk, hno⟩
    · refine .inl ⟨some d, rest, .kvirc rest hd he, ?_⟩
      have hsize : size ['\x03', d, e] = 2 + e.utf8Size := by
        have hone := utf8Size_of_ascii (Nat.lt_of_le_of_lt (le_toNat.mp hd.2) (by decide))
        simp [hone, show '\x03'.utf8Size = 1 from rfl]
        omega
      rw [hk, Option.bind_eq_bind, Option.bind_some]
      simp only
      rw [← hsize]
      exact congrArg _ (split_append ['\x03', d, e] rest)
    · rw [hk, Option.bind_eq_bind, Option.bind_some]
      simp only
      cases ht : textMark s with
      | some mark =>
        obtain ⟨digit, len⟩ := mark
        obtain ⟨d, rest, hd, rfl, -, rfl⟩ := textMark_eq_some.mp ht
        refine .inl ⟨some d, rest, .text rest hd, ?_⟩
        have hsize : size (textMarkPrefix ++ d :: textMarkSuffix) = 9 := by
          have hone := utf8Size_of_ascii (Nat.lt_of_le_of_lt (le_toNat.mp hd.2) (by decide))
          have hcode : size textMarkPrefix = 4 := rfl
          have hcode' : size textMarkSuffix = 4 := rfl
          rw [size_append, size_cons, hone, hcode, hcode']
        have hsplit := split_append (textMarkPrefix ++ d :: textMarkSuffix) rest
        rw [hsize, List.append_assoc, List.cons_append] at hsplit
        simp only [hsplit, Option.map_some]
      | none =>
        refine .inr ⟨?_, rfl⟩
        intro d rest hl
        cases hl with
        | invisible => exact stripPrefix_eq_none.mp hs (List.prefix_append ..)
        | kvirc _ hd he => exact hno _ _ _ hd he rfl
        | text _ hd =>
          rw [textMark_eq_some.mpr ⟨_, _, hd, rfl, rfl, rfl⟩] at ht
          cases ht

theorem behindMark_length_lt (h : behindMark s = some (some rest)) : rest.length < s.length := by
  rcases behindMark_cases s with ⟨d, r, hl, hr⟩ | ⟨-, hr⟩
  · rw [h, Option.some.injEq, Option.some.injEq] at hr
    exact hr ▸ hl.length_lt
  · rw [h] at hr
    cases hr

/-- The real name without the marks at its start. -/
def withoutMark (realname : List Char) : Option (List Char) :=
  match _h : behindMark realname with
  | none => none
  | some none => some realname
  | some (some rest) => withoutMark rest
termination_by realname.length
decreasing_by exact behindMark_length_lt _h

def markedRealname (base : List Char) : RealnameMark → Option (List Char)
  | .none => some base
  | .kvirc => some (realname base true)
  | .invisible => (withoutMark base).map (invisibleMark ++ ·)

theorem withoutMark_of_unmarked (h : Unmarked s) : withoutMark s = some s := by
  rcases behindMark_cases s with ⟨d, r, hl, -⟩ | ⟨-, hr⟩
  · exact absurd hl (h d r)
  · rw [withoutMark]
    split
    · next heq =>
      rw [hr] at heq
      cases heq
    · rfl
    · next heq =>
      rw [hr] at heq
      cases heq

theorem withoutMark_of_behindMark (h : behindMark s = some (some rest)) :
    withoutMark s = withoutMark rest := by
  rw [withoutMark]
  split
  · next heq =>
    rw [h] at heq
    cases heq
  · next heq =>
    rw [h] at heq
    cases heq
  · next heq =>
    rw [h] at heq
    cases heq
    rfl

theorem Leading.eq_of (h : Leading s d r) {d' : Option Char} {r' : List Char}
    (h' : Leading s d' r') : d = d' ∧ r = r' := by
  generalize hs : s = s' at h'
  cases h <;> cases h' <;> simp_all [invisibleMark, textMarkPrefix, textMarkSuffix]

theorem withoutMark_of_leading (h : Leading s d r) : withoutMark s = withoutMark r := by
  rcases behindMark_cases s with ⟨d', r', hl, hr⟩ | ⟨hn, -⟩
  · obtain ⟨rfl, rfl⟩ := h.eq_of hl
    exact withoutMark_of_behindMark hr
  · exact absurd h (hn d r)

theorem exists_withoutMark (s : List Char) : ∃ name, withoutMark s = some name ∧ Unmarked name := by
  induction hn : s.length using Nat.strong_induction_on generalizing s with
  | _ n ih =>
    subst hn
    rcases behindMark_cases s with ⟨d, r, hl, hr⟩ | ⟨hu, -⟩
    · rw [withoutMark_of_behindMark hr]
      exact ih _ hl.length_lt r rfl
    · exact ⟨s, withoutMark_of_unmarked hu, hu⟩

theorem digit_toNat {d m : Char} (hd : d ≤ m) (hm : m.toNat < 128) :
    (UInt8.ofNat d.toNat).toNat = d.toNat := by
  rw [le_toNat] at hd
  rw [UInt8.toNat_ofNat']
  omega

theorem fours_place {d : Char} (hd : '0' ≤ d ∧ d ≤ '7') :
    (((UInt8.ofNat d.toNat - 48) &&& avatarBit) != 0) = decide ('4' ≤ d ∧ d ≤ '7') := by
  obtain ⟨hlow, hhigh⟩ := hd
  simp only [le_toNat] at hlow hhigh ⊢
  have hlow' : 48 ≤ d.toNat := hlow
  have hhigh' : d.toNat ≤ 55 := hhigh
  generalize d.toNat = n at *
  interval_cases n <;> rfl

theorem advertisesAvatar_of_leading (h : Leading s d r) :
    advertisesAvatar s = some (d.all fun c => decide ('4' ≤ c ∧ c ≤ '7')) := by
  cases h with
  | invisible => exact if_pos (List.prefix_append ..)
  | @kvirc d e _ hd he =>
    have htext : textMark ('\x03' :: d :: e :: r) = none := by
      rw [Option.eq_none_iff_forall_ne_some]
      rintro ⟨digit, len⟩ hmark
      obtain ⟨d', rest, -, heq, -⟩ := textMark_eq_some.mp hmark
      exact absurd (List.cons.inj heq).1 (by decide)
    have hmark : kvircMark ('\x03' :: d :: e :: r) =
        some (some (UInt8.ofNat d.toNat, 2 + e.utf8Size)) := by
      rcases kvircMark_cases ('\x03' :: d :: e :: r) with ⟨d', e', r', -, -, heq, hk⟩ | ⟨-, hno⟩
      · simp only [List.cons.injEq, true_and] at heq
        obtain ⟨rfl, rfl, -⟩ := heq
        exact hk
      · exact absurd rfl (hno d e r hd he)
    have hvisible : ¬invisibleMark <+: '\x03' :: d :: e :: r := by
      rintro ⟨t, ht⟩
      exact absurd (List.cons.inj ht).1 (by decide)
    rw [advertisesAvatar, if_neg hvisible, htext]
    simp only [hmark, Option.bind_eq_bind, Option.bind_some]
    rw [fours_place hd]
    rfl
  | @text d _ hd =>
    have hvisible : ¬invisibleMark <+: textMarkPrefix ++ d :: (textMarkSuffix ++ r) := by
      rintro ⟨t, ht⟩
      exact absurd (List.cons.inj ht).1 (by decide)
    rw [advertisesAvatar, if_neg hvisible, textMark_eq_some.mpr ⟨d, r, hd, rfl, rfl, rfl⟩]
    simp only [UInt8.le_iff_toNat_le, digit_toNat hd.2 (by decide)]
    rfl

theorem advertisesAvatar_of_unmarked (h : Unmarked s) : advertisesAvatar s = some false := by
  have hvisible : ¬invisibleMark <+: s := by
    rintro ⟨rest, rfl⟩
    exact h none rest (.invisible rest)
  have htext : textMark s = none := by
    rw [Option.eq_none_iff_forall_ne_some]
    rintro ⟨digit, len⟩ hmark
    obtain ⟨d, rest, hd, rfl, -⟩ := textMark_eq_some.mp hmark
    exact h (some d) rest (.text rest hd)
  rw [advertisesAvatar, if_neg hvisible, htext]
  rcases kvircMark_cases s with ⟨d, e, rest, hd, he, rfl, -⟩ | ⟨hk, -⟩
  · exact absurd (Leading.kvirc rest hd he) (h (some d) rest)
  · simp only [hk, Option.bind_eq_bind, Option.bind_some]

/-- Marks can be put on a real name and taken off again. A name without its marks exists, has no
mark at its start and is left alone from then on; a mark put in front of any name goes off with
those already there, and advertises an avatar unless it is none. -/
theorem marks_reversible (base : List Char) : ∃ name, withoutMark base = some name ∧
    Unmarked name ∧ advertisesAvatar name = some false ∧ withoutMark name = some name ∧
    (Unmarked base → name = base) ∧
    (∀ mark, ∃ marked, markedRealname base mark = some marked ∧ withoutMark marked = some name ∧
      (mark ≠ .none → advertisesAvatar marked = some true)) ∧
    ∀ once, markedRealname base .invisible = some once →
      markedRealname once .invisible = some once := by
  obtain ⟨name, hname, hu⟩ := exists_withoutMark base
  have hself := withoutMark_of_unmarked hu
  have hinvisible : Leading (invisibleMark ++ name) none name := .invisible name
  refine ⟨name, hname, hu, advertisesAvatar_of_unmarked hu, hself, ?_, ?_, ?_⟩
  · intro hb
    rw [withoutMark_of_unmarked hb, Option.some.injEq] at hname
    exact hname.symm
  · intro mark
    cases mark with
    | none => exact ⟨base, rfl, hname, fun h => absurd rfl h⟩
    | kvirc =>
      have hkvirc : Leading (realname base true) (some '4') base :=
        .kvirc base (by decide) (.inl rfl)
      refine ⟨_, rfl, by rw [withoutMark_of_leading hkvirc, hname], fun _ => ?_⟩
      rw [advertisesAvatar_of_leading hkvirc]
      rfl
    | invisible =>
      refine ⟨invisibleMark ++ name, by rw [markedRealname, hname]; rfl, ?_, fun _ => ?_⟩
      · rw [withoutMark_of_leading hinvisible, hself]
      · rw [advertisesAvatar_of_leading hinvisible]
        rfl
  · intro once honce
    rw [markedRealname, hname] at honce
    cases honce
    rw [markedRealname, withoutMark_of_leading hinvisible, hself]
    rfl

end CayenChat.Avatars
