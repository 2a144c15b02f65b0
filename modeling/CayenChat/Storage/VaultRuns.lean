import CayenChat.Storage.Vault

/-! # What a secret is

A secret is its value in the vault, or else in the entry an earlier version left.
Every operation leaves the other secrets alone; the answers follow the last
write as long as the entries that are to be removed are removed.
-/

namespace CayenChat.Storage

def Entries.read (e : Entries) : Except CredentialError Secrets :=
  (e.vault.map VaultText.decode).getD (.ok ∅)

def Entries.secrets (e : Entries) : Secrets :=
  match e.read with
  | .ok secrets => secrets
  | .error _ => ∅

def Entries.value (e : Entries) (name : String) : Option String :=
  (e.secrets.lookup name).or (e.separate.lookup name)

section Value

variable {e : Entries} {secrets : Secrets} {name : String} (h : e.secrets = secrets)
include h

theorem Entries.value_vault {v : String} (hv : secrets.lookup name = some v) :
    e.value name = some v := by
  unfold Entries.value
  rw [h, hv, Option.some_or]

theorem Entries.value_separate (hv : secrets.lookup name = none) :
    e.value name = e.separate.lookup name := by
  unfold Entries.value
  rw [h, hv, Option.none_or]

end Value

namespace VaultBackend

variable {b b' : VaultBackend} {faults : Faults} {key : SecretKey} {name n : String}
  {secrets : Secrets} {error : CredentialError}

def Agrees (b : VaultBackend) : Prop :=
  ∀ secrets, b.state.secrets = some secrets → b.entries.read = .ok secrets

def Cleared (b : VaultBackend) : Prop :=
  ∀ name ∈ b.state.separateChecked, b.entries.separate.lookup name = none

/-- A name has what it had, in the vault and outside it. -/
structure Same (b b' : VaultBackend) (name : String) : Prop where
  vault : b'.entries.secrets.lookup name = b.entries.secrets.lookup name
  separate : b'.entries.separate.lookup name = b.entries.separate.lookup name
  checked : name ∈ b'.state.separateChecked ↔ name ∈ b.state.separateChecked

theorem Same.refl (b : VaultBackend) (name : String) : Same b b name := ⟨rfl, rfl, .rfl⟩

theorem Same.trans {b'' : VaultBackend} (h : Same b b' n) (h' : Same b' b'' n) : Same b b'' n :=
  ⟨h'.vault.trans h.vault, h'.separate.trans h.separate, h'.checked.trans h.checked⟩

theorem Same.value (h : Same b b' n) : b'.entries.value n = b.entries.value n := by
  unfold Entries.value
  rw [h.vault, h.separate]

section Steps

theorem loaded_entries (h : b.Agrees) (hl : b.loaded faults = .ok (b', secrets)) :
    b'.entries = b.entries ∧ b'.state.separateChecked = b.state.separateChecked ∧ b'.Agrees ∧
      b.entries.secrets = secrets := by
  unfold loaded at hl
  cases hs : b.state.secrets with
  | some s =>
    rw [hs] at hl
    cases hl
    refine ⟨rfl, rfl, h, ?_⟩
    unfold Entries.secrets
    rw [h _ hs]
  | none =>
    rw [hs] at hl
    dsimp only at hl
    cases hf : faults.readVault with
    | some error =>
      rw [hf] at hl
      cases hl
    | none =>
      rw [hf] at hl
      dsimp only at hl
      cases hr : b.entries.read with
      | error error =>
        rw [show (b.entries.vault.map VaultText.decode).getD (.ok ∅) = _ from hr] at hl
        cases hl
      | ok s =>
        rw [show (b.entries.vault.map VaultText.decode).getD (.ok ∅) = _ from hr] at hl
        cases hl
        refine ⟨rfl, rfl, ?_, ?_⟩
        · intro s' hs'
          cases hs'
          exact hr
        · unfold Entries.secrets
          rw [hr]

theorem Cleared.congr (h : b.Cleared) (hs : b'.entries.separate = b.entries.separate)
    (hch : b'.state.separateChecked = b.state.separateChecked) : b'.Cleared := by
  intro n hn
  rw [hs]
  exact h n (hch ▸ hn)

theorem loaded_spec (h : b.Agrees) (hl : b.loaded faults = .ok (b', secrets)) :
    (∀ n, Same b b' n) ∧ (b.Cleared → b'.Cleared) ∧ b'.Agrees ∧ b.entries.secrets = secrets ∧
      b'.entries.secrets = secrets := by
  obtain ⟨he, hch, ha, hsec⟩ := loaded_entries h hl
  refine ⟨fun n => ⟨by rw [he], by rw [he], by rw [hch]⟩, fun hc => ?_, ha, hsec, he ▸ hsec⟩
  exact hc.congr (by rw [he]) hch

theorem store_spec (hs : b.store faults secrets = .ok b') :
    faults.write = none ∧ b'.entries.separate = b.entries.separate ∧
      b'.state.separateChecked = b.state.separateChecked ∧ b'.Agrees ∧
        b'.entries.secrets = secrets := by
  unfold store at hs
  cases hw : faults.write with
  | some error =>
    rw [hw] at hs
    cases hs
  | none =>
    rw [hw] at hs
    cases hs
    refine ⟨rfl, rfl, rfl, ?_, rfl⟩
    intro s hs
    cases hs
    rfl

theorem check_same (hn : n ≠ name) : Same b (b.check name) n := by
  refine ⟨rfl, rfl, ?_⟩
  change n ∈ insert name b.state.separateChecked ↔ _
  rw [Finset.mem_insert, or_iff_right hn]

theorem clearSeparate_spec (b : VaultBackend) (faults : Faults) (name : String) :
    (∀ n ≠ name, Same b (b.clearSeparate faults name) n) ∧
      (b.Agrees → (b.clearSeparate faults name).Agrees) ∧
      (b.clearSeparate faults name).entries.secrets = b.entries.secrets ∧
      (b.Cleared → (name ∉ b.state.separateChecked →
        (b.entries.separate.lookup name).isSome → faults.remove = none) →
        (b.clearSeparate faults name).Cleared ∧
          (b.clearSeparate faults name).entries.separate.lookup name = none) := by
  unfold clearSeparate
  split
  · exact ⟨fun n _ => .refl b n, fun h => h, rfl, fun hc _ => ⟨hc, hc name ‹_›⟩⟩
  rename_i hno
  unfold remove
  cases hr : faults.remove with
  | none =>
    dsimp only
    refine ⟨fun n hn => ⟨rfl, ?_, (check_same hn).checked⟩, fun h => h, rfl, fun hc _ => ⟨?_, ?_⟩⟩
    · exact (Map.lookup_erase).trans (if_neg hn)
    · intro n hn
      change (b.entries.separate.erase name).lookup n = none
      rw [Map.lookup_erase]
      split
      · rfl
      · exact hc n ((Finset.mem_insert.mp hn).resolve_left ‹_›)
    · exact (Map.lookup_erase).trans (if_pos rfl)
  | some error =>
    dsimp only
    refine ⟨fun n hn => check_same hn, fun h => h, rfl, fun hc hrem => ?_⟩
    have hnone : b.entries.separate.lookup name = none := by
      cases hs : b.entries.separate.lookup name with
      | none => rfl
      | some value =>
        have := hrem hno (by rw [hs]; rfl)
        cases this
    refine ⟨?_, hnone⟩
    intro n hn
    rcases Finset.mem_insert.mp hn with rfl | hn
    · exact hnone
    · exact hc n hn

end Steps

def reads (b : VaultBackend) (faults : Faults) : Bool :=
  match b.loaded faults with
  | .ok _ => true
  | .error _ => false

theorem reads_of_loaded {r : VaultBackend × Secrets} (hl : b.loaded faults = .ok r) :
    b.reads faults = true := by
  unfold reads
  rw [hl]

section Operations

def GetRemoves (b : VaultBackend) (faults : Faults) (key : SecretKey) : Prop :=
  b.reads faults = true → b.entries.secrets.lookup key.name = none →
    key.name ∉ b.state.separateChecked → faults.read = none → faults.write = none →
      (b.entries.separate.lookup key.name).isSome → faults.remove = none

def SetRemoves (b : VaultBackend) (faults : Faults) (key : SecretKey) (value : String) : Prop :=
  b.reads faults = true → (b.entries.secrets.lookup key.name = some value ∨ faults.write = none) →
    key.name ∉ b.state.separateChecked →
      (b.entries.separate.lookup key.name).isSome → faults.remove = none

/-- A deletion that got a secret out of the vault does not fail afterwards either. -/
def DeleteRemoves (b : VaultBackend) (faults : Faults) (key : SecretKey) : Prop :=
  b.reads faults = true →
    ((b.entries.secrets.lookup key.name).isSome → faults.write = none) →
      key.name ∉ b.state.separateChecked → (b.entries.value key.name).isSome →
        faults.remove = none

/-- What an operation on a key does, when what is to be removed is removed. -/
structure Done (b b' : VaultBackend) (key : SecretKey) (value : Option String) : Prop where
  cleared : b'.Cleared
  value : b'.entries.value key.name = value

theorem adopt_spec (h : b.Agrees) (faults : Faults) (hsec : b.entries.secrets = secrets)
    (hv : secrets.lookup name = none) (hno : name ∉ b.state.separateChecked) :
    (b.adopt faults secrets name).1.Agrees ∧ (∀ n ≠ name, Same b (b.adopt faults secrets name).1 n) ∧
      (b.Cleared → (faults.read = none → faults.write = none →
        (b.entries.separate.lookup name).isSome → faults.remove = none) →
        ((b.adopt faults secrets name).1.Cleared ∧
          (b.adopt faults secrets name).1.entries.value name = b.entries.value name) ∧
          ∀ v, (b.adopt faults secrets name).2 = .ok v → v = b.entries.value name) := by
  have hval := Entries.value_separate hsec hv
  rw [hval]
  unfold adopt
  cases hr : faults.read with
  | some error =>
    exact ⟨h, fun n _ => .refl b n, fun hc _ => ⟨⟨hc, hval⟩, fun v hv => by cases hv⟩⟩
  | none =>
    dsimp only
    cases hs : b.entries.separate.lookup name with
    | none =>
      refine ⟨h, fun n hn => check_same hn, fun hc _ => ⟨⟨?_, hval.trans hs⟩, fun v hv => by
        cases hv; rfl⟩⟩
      intro n hn
      rcases Finset.mem_insert.mp hn with rfl | hn
      · exact hs
      · exact hc n hn
    | some value =>
      dsimp only
      cases hst : b.store faults (secrets.insert name value) with
      | error error =>
        refine ⟨h, fun n _ => .refl b n, fun hc _ => ⟨⟨hc, hval.trans hs⟩, fun v hv => by
          cases hv; rfl⟩⟩
      | ok b₁ =>
        obtain ⟨hw, hsep, hch, ha, hsec'⟩ := store_spec hst
        obtain ⟨hsame, hag, hsecs, hclear⟩ := clearSeparate_spec b₁ faults name
        dsimp only
        refine ⟨hag ha, fun n hn => Same.trans ⟨?_, by rw [hsep], by rw [hch]⟩ (hsame n hn), ?_⟩
        · rw [hsec', hsec, Map.lookup_insert, if_neg hn]
        · intro hc hrem
          obtain ⟨hcl, -⟩ := hclear (hc.congr hsep hch) fun _ _ => hrem rfl hw rfl
          refine ⟨⟨hcl, ?_⟩, fun v hv => by cases hv; rfl⟩
          exact Entries.value_vault (hsecs.trans hsec') (Map.lookup_insert.trans (if_pos rfl))

theorem get_spec (h : b.Agrees) (faults : Faults) (key : SecretKey) :
    (b.get faults key).1.Agrees ∧ (∀ n ≠ key.name, Same b (b.get faults key).1 n) ∧
      (b.Cleared → b.GetRemoves faults key →
        Done b (b.get faults key).1 key (b.entries.value key.name) ∧
          ∀ v, (b.get faults key).2 = .ok v → v = b.entries.value key.name) := by
  unfold get
  cases hl : b.loaded faults with
  | error error => exact ⟨h, fun n _ => .refl b n, fun hc _ => ⟨⟨hc, rfl⟩, fun v hv => by cases hv⟩⟩
  | ok r =>
    obtain ⟨b₁, secrets⟩ := r
    obtain ⟨hsame, hc₁, ha, hsec, hsec₁⟩ := loaded_spec h hl
    dsimp only
    cases hv : secrets.lookup key.name with
    | some value =>
      have hval := Entries.value_vault hsec hv
      refine ⟨ha, fun n _ => hsame n, fun hc _ => ⟨⟨hc₁ hc, (hsame _).value⟩, ?_⟩⟩
      rintro v ⟨⟩
      exact hval.symm
    | none =>
      have hval := Entries.value_separate hsec hv
      dsimp only
      split
      · refine ⟨ha, fun n _ => hsame n, fun hc _ => ⟨⟨hc₁ hc, (hsame _).value⟩, ?_⟩⟩
        rintro v ⟨⟩
        rw [hval, hc _ ((hsame _).checked.mp ‹_›)]
      · rename_i hno
        obtain ⟨hag, hothers, hmoved⟩ := adopt_spec ha faults hsec₁ hv hno
        refine ⟨hag, fun n hn => (hsame n).trans (hothers n hn), fun hc hrem => ?_⟩
        obtain ⟨⟨hcl, hvalue⟩, hret⟩ := hmoved (hc₁ hc) fun hr hw hsep =>
          hrem (reads_of_loaded hl) (hsec ▸ hv) (mt (hsame _).checked.mpr hno) hr hw
            ((hsame _).separate ▸ hsep)
        exact ⟨⟨hcl, hvalue.trans (hsame _).value⟩, fun v hv' => (hret v hv').trans (hsame _).value⟩

theorem set_spec (h : b.Agrees) (faults : Faults) (key : SecretKey) (value : String) :
    (b.set faults key value).1.Agrees ∧ (∀ n ≠ key.name, Same b (b.set faults key value).1 n) ∧
      (b.Cleared → b.SetRemoves faults key value → (b.set faults key value).1.Cleared ∧
        ((b.set faults key value).2 = .ok () →
          (b.set faults key value).1.entries.value key.name = some value) ∧
        ((b.set faults key value).2 ≠ .ok () →
          (b.set faults key value).1.entries.value key.name = b.entries.value key.name)) := by
  unfold set
  cases hl : b.loaded faults with
  | error error =>
    exact ⟨h, fun n _ => .refl b n, fun hc _ => ⟨hc, fun hok => (by cases hok), fun _ => rfl⟩⟩
  | ok r =>
    obtain ⟨b₁, secrets⟩ := r
    obtain ⟨hsame, hc₁, ha, hsec, hsec₁⟩ := loaded_spec h hl
    dsimp only
    split
    · rename_i hv
      obtain ⟨hothers, hag, hsecs, hclear⟩ := clearSeparate_spec b₁ faults key.name
      refine ⟨hag ha, fun n hn => (hsame n).trans (hothers n hn), fun hc hrem => ?_⟩
      obtain ⟨hcl, -⟩ := hclear (hc₁ hc) fun hno hsep =>
        hrem (reads_of_loaded hl) (.inl (hsec ▸ hv)) (mt (hsame _).checked.mpr hno)
          ((hsame _).separate ▸ hsep)
      exact ⟨hcl, fun _ => Entries.value_vault (hsecs.trans hsec₁) hv, fun hno => absurd rfl hno⟩
    · cases hst : b₁.store faults (secrets.insert key.name value) with
      | error error =>
        exact ⟨ha, fun n _ => hsame n, fun hc _ => ⟨hc₁ hc, fun hok => (by cases hok),
          fun _ => (hsame _).value⟩⟩
      | ok b₂ =>
        obtain ⟨hw, hsep, hch₂, ha₂, hsec₂⟩ := store_spec hst
        obtain ⟨hothers, hag, hsecs, hclear⟩ := clearSeparate_spec b₂ faults key.name
        refine ⟨hag ha₂, fun n hn => ((hsame n).trans ⟨?_, by rw [hsep], by rw [hch₂]⟩).trans
          (hothers n hn), fun hc hrem => ?_⟩
        · rw [hsec₂, hsec₁, Map.lookup_insert, if_neg hn]
        · obtain ⟨hcl, -⟩ := hclear ((hc₁ hc).congr hsep hch₂) fun hno hsep' =>
            hrem (reads_of_loaded hl) (.inr hw) (mt (hsame _).checked.mpr (hch₂ ▸ hno))
              ((hsame _).separate ▸ hsep ▸ hsep')
          refine ⟨hcl, fun _ => ?_, fun hno => absurd rfl hno⟩
          exact Entries.value_vault (hsecs.trans hsec₂) (Map.lookup_insert.trans (if_pos rfl))

theorem deleteSeparate_spec (b : VaultBackend) (faults : Faults) (name : String) :
    (∀ n ≠ name, Same b (b.deleteSeparate faults name).1 n) ∧
      (b.Agrees → (b.deleteSeparate faults name).1.Agrees) ∧
      (b.deleteSeparate faults name).1.entries.secrets = b.entries.secrets ∧
      (b.Cleared → (name ∉ b.state.separateChecked →
        (b.entries.separate.lookup name).isSome → faults.remove = none) →
          (b.deleteSeparate faults name).1.Cleared ∧
            (b.deleteSeparate faults name).1.entries.separate.lookup name = none) ∧
      (name ∉ b.state.separateChecked → faults.remove = none →
        (b.deleteSeparate faults name).2 = .ok ()) ∧
      (name ∈ b.state.separateChecked → (b.deleteSeparate faults name).2 = .ok ()) := by
  have heq : (b.deleteSeparate faults name).1 = b.clearSeparate faults name := by
    unfold deleteSeparate clearSeparate
    split
    · rfl
    · cases (b.check name).remove faults name <;> rfl
  rw [heq]
  obtain ⟨hsame, hag, hsec, hclear⟩ := clearSeparate_spec b faults name
  refine ⟨hsame, hag, hsec, hclear, fun hno hrem => ?_, fun hin => ?_⟩
  · unfold deleteSeparate remove
    rw [if_neg hno, hrem]
  · unfold deleteSeparate
    rw [if_pos hin]

theorem delete_spec (h : b.Agrees) (faults : Faults) (key : SecretKey) :
    (b.delete faults key).1.Agrees ∧ (∀ n ≠ key.name, Same b (b.delete faults key).1 n) ∧
      (b.Cleared → b.DeleteRemoves faults key → (b.delete faults key).1.Cleared ∧
        ((b.delete faults key).2 = .ok () →
          (b.delete faults key).1.entries.value key.name = none) ∧
        ((b.delete faults key).2 ≠ .ok () →
          (b.delete faults key).1.entries.value key.name = b.entries.value key.name)) := by
  unfold delete
  cases hl : b.loaded faults with
  | error error =>
    exact ⟨h, fun n _ => .refl b n, fun hc _ => ⟨hc, fun hok => (by cases hok), fun _ => rfl⟩⟩
  | ok r =>
    obtain ⟨b₁, secrets⟩ := r
    obtain ⟨hsame, hc₁, ha, hsec, hsec₁⟩ := loaded_spec h hl
    dsimp only
    split
    · rename_i hv
      cases hst : b₁.store faults (secrets.erase key.name) with
      | error error =>
        exact ⟨ha, fun n _ => hsame n, fun hc _ => ⟨hc₁ hc, fun hok => (by cases hok),
          fun _ => (hsame _).value⟩⟩
      | ok b₂ =>
        obtain ⟨hw, hsep, hch₂, ha₂, hsec₂⟩ := store_spec hst
        obtain ⟨hothers, hag, hsecs, hclear, hok, hok'⟩ := deleteSeparate_spec b₂ faults key.name
        refine ⟨hag ha₂, fun n hn => ((hsame n).trans ⟨?_, by rw [hsep], by rw [hch₂]⟩).trans
          (hothers n hn), fun hc hrem => ?_⟩
        · rw [hsec₂, hsec₁, Map.lookup_erase, if_neg hn]
        · -- the secret is out of the vault, so the removal does not fail
          have hremove : key.name ∉ b₂.state.separateChecked → faults.remove = none := fun hno =>
            hrem (reads_of_loaded hl) (fun _ => hw) (mt (hsame _).checked.mpr (hch₂ ▸ hno)) (by
              unfold Entries.value
              rw [hsec, Option.isSome_or, hv, Bool.true_or])
          obtain ⟨hcl, hnone⟩ := hclear ((hc₁ hc).congr hsep hch₂) fun hno _ => hremove hno
          refine ⟨hcl, fun _ => ?_, fun hno => absurd ?_ hno⟩
          · have herased : (secrets.erase key.name).lookup key.name = none :=
              Map.lookup_erase.trans (if_pos rfl)
            exact (Entries.value_separate (hsecs.trans hsec₂) herased).trans hnone
          · by_cases hin : key.name ∈ b₂.state.separateChecked
            · exact hok' hin
            · exact hok hin (hremove hin)
    · rename_i hv
      have hnone : secrets.lookup key.name = none := Option.not_isSome_iff_eq_none.mp hv
      obtain ⟨hothers, hag, hsecs, hclear, hok, hok'⟩ := deleteSeparate_spec b₁ faults key.name
      have hval := Entries.value_separate hsec hnone
      refine ⟨hag ha, fun n hn => (hsame n).trans (hothers n hn), fun hc hrem => ?_⟩
      have hremove : key.name ∉ b₁.state.separateChecked →
          (b.entries.separate.lookup key.name).isSome → faults.remove = none := fun hno hsep' =>
        hrem (reads_of_loaded hl) (fun hsome => absurd (hsec ▸ hsome) hv)
          (mt (hsame _).checked.mpr hno) (hval ▸ hsep')
      obtain ⟨hcl, hsep⟩ := hclear (hc₁ hc) fun hno hsep' =>
        hremove hno ((hsame _).separate ▸ hsep')
      have hafter := (Entries.value_separate (hsecs.trans hsec₁) hnone).trans hsep
      refine ⟨hcl, fun _ => hafter, fun hno => ?_⟩
      cases hs : b.entries.separate.lookup key.name with
      | none => rw [hafter, hval, hs]
      | some value =>
        exfalso
        apply hno
        by_cases hin : key.name ∈ b₁.state.separateChecked
        · exact hok' hin
        · exact hok hin (hremove hin (by rw [hs]; rfl))

end Operations

end VaultBackend

/-- A call of the backend, with the calls of the store that fail in it, or a new process. -/
inductive VaultCall
  | get (faults : Faults) (key : SecretKey)
  | set (faults : Faults) (key : SecretKey) (value : String)
  | delete (faults : Faults) (key : SecretKey)
  | restart
  deriving DecidableEq, Repr

def VaultCall.key : VaultCall → Option SecretKey
  | .get _ key | .set _ key _ | .delete _ key => some key
  | .restart => none

/-- A backend with what was last written under each name: nothing, or a value or its deletion. -/
structure Session where
  backend : VaultBackend
  written : String → Option (Option String) := fun _ => none

namespace Session

variable {s : Session} {i : VaultCall} {is : List VaultCall} {entries : Entries}

def step (s : Session) : VaultCall → Session
  | .get faults key => { s with backend := (s.backend.get faults key).1 }
  | .set faults key value =>
    { backend := (s.backend.set faults key value).1
      written := if (s.backend.set faults key value).2 = .ok () then
        Function.update s.written key.name (some (some value)) else s.written }
  | .delete faults key =>
    { backend := (s.backend.delete faults key).1
      written := if (s.backend.delete faults key).2 = .ok () then
        Function.update s.written key.name (some none) else s.written }
  | .restart => { s with backend := s.backend.restart }

def Removes (s : Session) : VaultCall → Prop
  | .get faults key => s.backend.GetRemoves faults key
  | .set faults key value => s.backend.SetRemoves faults key value
  | .delete faults key => s.backend.DeleteRemoves faults key
  | .restart => True

def expected (s : Session) (entries : Entries) (name : String) : Option String :=
  (s.written name).getD (entries.value name)

/-- A call of `get` that succeeds gives what the secret is to be. -/
def Answers (entries : Entries) (s : Session) (i : VaultCall) : Prop :=
  ∀ faults key v, i = .get faults key → (s.backend.get faults key).2 = .ok v →
    v = s.expected entries key.name

def Frames (s : Session) (i : VaultCall) : Prop :=
  ∀ key, i.key = some key → ∀ n ≠ key.name, s.backend.Same (s.step i).backend n

theorem step_agrees (h : s.backend.Agrees) : (s.step i).backend.Agrees ∧ s.Frames i := by
  cases i with
  | get faults key =>
    obtain ⟨ha, hs, -⟩ := VaultBackend.get_spec h faults key
    exact ⟨ha, fun key hk => by cases hk; exact hs⟩
  | set faults key value =>
    obtain ⟨ha, hs, -⟩ := VaultBackend.set_spec h faults key value
    exact ⟨ha, fun key hk => by cases hk; exact hs⟩
  | delete faults key =>
    obtain ⟨ha, hs, -⟩ := VaultBackend.delete_spec h faults key
    exact ⟨ha, fun key hk => by cases hk; exact hs⟩
  | restart => exact ⟨fun secrets hs => (by cases hs), fun key hk => (by cases hk)⟩

/-- The store has what every secret is to be. -/
structure Follows (s : Session) (entries : Entries) : Prop where
  agrees : s.backend.Agrees
  cleared : s.backend.Cleared
  value : ∀ n, s.backend.entries.value n = s.expected entries n

theorem Follows.update (h : s.Follows entries) {b : VaultBackend} {name : String} {ok : Prop}
    [Decidable ok] {v : Option String} (ha : b.Agrees) (hc : b.Cleared)
    (hs : ∀ n ≠ name, s.backend.Same b n) (hok : ok → b.entries.value name = v)
    (herr : ¬ok → b.entries.value name = s.backend.entries.value name) :
    Follows ⟨b, if ok then Function.update s.written name (some v) else s.written⟩ entries := by
  refine ⟨ha, hc, fun n => ?_⟩
  unfold expected
  dsimp only
  by_cases hn : n = name
  · subst hn
    split
    · rw [Function.update_self]
      exact hok ‹_›
    · exact (herr ‹_›).trans (h.value _)
  · refine (hs n hn).value.trans ((h.value n).trans ?_)
    split
    · rw [Function.update_of_ne hn]
      rfl
    · rfl

theorem step_follows (h : s.Follows entries) (hr : s.Removes i) :
    (s.step i).Follows entries ∧ s.Answers entries i := by
  obtain ⟨ha, hf⟩ := step_agrees (i := i) h.agrees
  cases i with
  | get faults key =>
    obtain ⟨-, -, hd⟩ := VaultBackend.get_spec h.agrees faults key
    obtain ⟨hdone, hret⟩ := hd h.cleared hr
    refine ⟨⟨ha, hdone.cleared, fun n => ?_⟩, ?_⟩
    · by_cases hn : n = key.name
      · subst hn
        exact hdone.value.trans (h.value _)
      · exact (hf key rfl n hn).value.trans (h.value n)
    · rintro faults' key' v ⟨⟩ hv
      exact (hret v hv).trans (h.value _)
  | set faults key value =>
    obtain ⟨-, -, hd⟩ := VaultBackend.set_spec h.agrees faults key value
    obtain ⟨hcl, hok, herr⟩ := hd h.cleared hr
    exact ⟨h.update ha hcl (hf key rfl) hok herr, fun _ _ _ hi => by cases hi⟩
  | delete faults key =>
    obtain ⟨-, -, hd⟩ := VaultBackend.delete_spec h.agrees faults key
    obtain ⟨hcl, hok, herr⟩ := hd h.cleared hr
    exact ⟨h.update ha hcl (hf key rfl) hok herr, fun _ _ _ hi => by cases hi⟩
  | restart =>
    refine ⟨⟨ha, fun n hn => ?_, h.value⟩, fun _ _ _ hi => by cases hi⟩
    exact absurd hn (Finset.notMem_empty n)

/-- In every run whose calls remove the separate entries they get to remove, what `get` gives is what
was last set, nothing after a deletion, and what the store had while neither was done; and no call of
any run changes a secret of another name. -/
theorem secrets_follow (entries : Entries) (is : List VaultCall) :
    (Machine.Along Removes step ⟨{ entries }, fun _ => none⟩ is →
      Machine.Along (Answers entries) step ⟨{ entries }, fun _ => none⟩ is) ∧
    Machine.Along Frames step ⟨{ entries }, fun _ => none⟩ is := by
  have hstart : VaultBackend.Agrees { entries } := fun secrets hs => by cases hs
  constructor
  · refine fun h => Machine.Along.of_invariant (fun s => s.Follows entries) ?_ ?_ ?_ h
    · exact fun s i hs hi => (step_follows hs hi).1
    · exact fun s i hs hi => (step_follows hs hi).2
    · exact ⟨hstart, fun n hn => absurd hn (Finset.notMem_empty n), fun n => rfl⟩
  · refine Machine.along_of_invariant (fun s => s.backend.Agrees) ?_ ?_ hstart
    · exact fun s i hs => (step_agrees hs).1
    · exact fun s i hs => (step_agrees hs).2

/-- The password is replaced, but the removal of its old entry fails; it is deleted, and the next process
finds the old one again. -/
theorem deleted_secret_returns :
    let key := SecretKey.saslPassword "a"
    let entries : Entries := { separate := (∅ : Map String String).insert key.name "old" }
    let b : VaultBackend := { entries }
    let set := b.set { remove := some (.access "locked") } key "new"
    let deleted := set.1.delete {} key
    set.2 = .ok () ∧ deleted.2 = .ok () ∧ (deleted.1.restart.get {} key).2 = .ok (some "old") := by
  decide +kernel

end Session

end CayenChat.Storage
