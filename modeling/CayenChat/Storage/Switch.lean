import CayenChat.Storage.Vault

/-! # Switching the credential store

Secrets are copied from one store to another, and the originals are removed once the switch is
saved, or the copies when it is given up. Each call of a store may fail, and then no secret has
changed; what else a store keeps is its own.
-/

namespace CayenChat.Storage

/-- A place secrets are kept: what it holds under each name in a state, and its calls. -/
structure CredentialBackend where
  State : Type
  holds : State → String → Option String
  get : State → SecretKey → State × Except CredentialError (Option String)
  set : State → SecretKey → String → State × Except CredentialError Unit
  delete : State → SecretKey → State × Except CredentialError Unit
  holds_get : ∀ s key, holds (get s key).1 = holds s
  get_ok : ∀ s key value, (get s key).2 = .ok value → value = holds s key.name
  set_ok : ∀ s key value, (set s key value).2 = .ok () →
    holds (set s key value).1 = Function.update (holds s) key.name (some value)
  set_error : ∀ s key value e, (set s key value).2 = .error e →
    holds (set s key value).1 = holds s
  delete_ok : ∀ s key, (delete s key).2 = .ok () →
    holds (delete s key).1 = Function.update (holds s) key.name none
  delete_error : ∀ s key e, (delete s key).2 = .error e → holds (delete s key).1 = holds s

/-- The store of the application, with its backend. -/
structure CredentialStore where
  backend : CredentialBackend

namespace CredentialStore

variable (c : CredentialStore)

abbrev State : Type := c.backend.State

def holds (s : c.State) (name : String) : Option String := c.backend.holds s name

def get (s : c.State) (key : SecretKey) : c.State × Except CredentialError (Option String) :=
  c.backend.get s key

def set (s : c.State) (key : SecretKey) (value : String) : c.State × Except CredentialError Unit :=
  if value = "" then c.backend.delete s key else c.backend.set s key value

def delete (s : c.State) (key : SecretKey) : c.State × Except CredentialError Unit :=
  c.backend.delete s key

def removeKeys : c.State → List SecretKey → c.State × List (SecretKey × Except CredentialError Unit)
  | s, [] => (s, [])
  | s, key :: keys =>
    let (s, result) := c.delete s key
    let (s, results) := removeKeys s keys
    (s, (key, result) :: results)

end CredentialStore

/-- The secrets that were copied. -/
structure Copied where
  keys : List SecretKey := []
  sourceUnavailable : Bool := false
  deriving DecidableEq, Repr

def Copied.removeOriginals (copied : Copied) (source : CredentialStore) (s : source.State) :
    source.State :=
  (source.removeKeys s copied.keys).1

def Copied.removeCopies (copied : Copied) (target : CredentialStore) (t : target.State) :
    target.State :=
  (target.removeKeys t copied.keys).1

/-- What reading the source came to. -/
inductive Found
  | all (found : List (SecretKey × String))
  | unavailable
  | failed (error : CredentialError)

/-- Reads the keys, up to a failure. -/
def findAll (source : CredentialStore) :
    source.State → List SecretKey → List (SecretKey × String) → source.State × Found
  | s, [], found => (s, .all found)
  | s, key :: keys, found =>
    match source.get s key with
    | (s, .ok (some value)) => findAll source s keys (found ++ [(key, value)])
    | (s, .ok none) => findAll source s keys found
    | (s, .error (.unavailable _)) => (s, .unavailable)
    | (s, .error error) => (s, .failed error)

/-- Writes what was found, up to a failure. -/
def writeAll (target : CredentialStore) : target.State → List (SecretKey × String) → Copied →
    target.State × Copied × Option CredentialError
  | t, [], copied => (t, copied, none)
  | t, (key, value) :: found, copied =>
    match target.set t key value with
    | (t, .error error) => (t, copied, some error)
    | (t, .ok ()) => writeAll target t found { copied with keys := copied.keys ++ [key] }

/-- Copies the secrets and leaves the originals in place; copies made before a failure are removed
again. -/
def copySecrets (source target : CredentialStore) (s : source.State) (t : target.State)
    (keys : List SecretKey) : (source.State × target.State) × Except CredentialError Copied :=
  match findAll source s keys [] with
  | (s, .unavailable) => ((s, t), .ok { sourceUnavailable := true })
  | (s, .failed error) => ((s, t), .error error)
  | (s, .all found) =>
    match writeAll target t found {} with
    | (t, copied, none) => ((s, t), .ok copied)
    | (t, copied, some error) => ((s, copied.removeCopies target t), .error error)

/-! ## Single calls -/

namespace CredentialStore

variable {c : CredentialStore} {s : c.State} {key : SecretKey} {keys : List SecretKey}
  {name : String} {value : String}

theorem holds_get (s : c.State) (key : SecretKey) : c.holds (c.get s key).1 = c.holds s :=
  c.backend.holds_get s key

theorem holds_set (h : (c.set s key value).2 = .ok ()) (name : String) :
    c.holds (c.set s key value).1 name =
      if name = key.name then (if value = "" then none else some value) else c.holds s name := by
  unfold set at h ⊢
  by_cases hv : value = ""
  · rw [if_pos hv] at h ⊢
    simp only [holds, c.backend.delete_ok s key h, Function.update_apply, if_pos hv]
  · rw [if_neg hv] at h ⊢
    simp only [holds, c.backend.set_ok s key value h, Function.update_apply, if_neg hv]

theorem holds_set_error {e : CredentialError} (h : (c.set s key value).2 = .error e) :
    c.holds (c.set s key value).1 = c.holds s := by
  unfold set at h ⊢
  by_cases hv : value = ""
  · rw [if_pos hv] at h ⊢
    exact c.backend.delete_error s key e h
  · rw [if_neg hv] at h ⊢
    exact c.backend.set_error s key value e h

theorem holds_delete (s : c.State) (key : SecretKey) (name : String) :
    (c.holds (c.delete s key).1 name = c.holds s name ∧
        (key.name = name → ∃ e, (c.delete s key).2 = .error e)) ∨
      key.name = name ∧ c.holds (c.delete s key).1 name = none := by
  cases h : (c.delete s key).2 with
  | error e => exact .inl ⟨congrFun (c.backend.delete_error s key e h) name, fun _ => ⟨e, rfl⟩⟩
  | ok u =>
    have hd := congrFun (c.backend.delete_ok s key h) name
    rw [Function.update_apply] at hd
    by_cases hn : name = key.name
    · rw [if_pos hn] at hd
      exact .inr ⟨hn.symm, hd⟩
    · rw [if_neg hn] at hd
      exact .inl ⟨hd, fun h => absurd h.symm hn⟩

/-- Deleting some keys leaves each name as it is, where it is none of theirs or each deletion of it
failed, or empty. -/
theorem removeKeys_spec (s : c.State) (keys : List SecretKey) (name : String) :
    (c.holds (c.removeKeys s keys).1 name = c.holds s name ∧
        ∀ key ∈ keys, key.name = name → ∃ e, (key, .error e) ∈ (c.removeKeys s keys).2) ∨
      (∃ key ∈ keys, key.name = name) ∧ c.holds (c.removeKeys s keys).1 name = none := by
  induction keys generalizing s with
  | nil => exact .inl ⟨rfl, by simp⟩
  | cons key keys ih =>
    rw [removeKeys]
    dsimp only
    rcases ih (c.delete s key).1 with ⟨heq, hfail⟩ | ⟨⟨k, hk, hkn⟩, hnone⟩
    · rcases holds_delete s key name with ⟨hsame, herr⟩ | ⟨hn, hgone⟩
      · refine .inl ⟨heq.trans hsame, fun k hk hkn => ?_⟩
        rcases List.mem_cons.mp hk with rfl | hk
        · obtain ⟨e, he⟩ := herr hkn
          exact ⟨e, by rw [he]; exact List.mem_cons_self⟩
        · obtain ⟨e, he⟩ := hfail k hk hkn
          exact ⟨e, List.mem_cons_of_mem _ he⟩
      · exact .inr ⟨⟨key, List.mem_cons_self, hn⟩, heq.trans hgone⟩
    · exact .inr ⟨⟨k, List.mem_cons_of_mem _ hk, hkn⟩, hnone⟩

end CredentialStore

/-! ## Reading and writing -/

variable {source target : CredentialStore} {s s' : source.State} {t t' : target.State}
  {keys : List SecretKey} {found found' : List (SecretKey × String)} {copied copied' : Copied}
  {name value : String}

theorem findAll_spec (s : source.State) (keys : List SecretKey)
    (found : List (SecretKey × String)) :
    source.holds (findAll source s keys found).1 = source.holds s ∧
      ∀ found', (findAll source s keys found).2 = .all found' →
        ∃ more, found' = found ++ more ∧ (∀ p ∈ more, source.holds s p.1.name = some p.2) ∧
          ∀ key ∈ keys, ∀ v, source.holds s key.name = some v → (key, v) ∈ more := by
  induction keys generalizing s found with
  | nil =>
    refine ⟨rfl, ?_⟩
    rintro found' ⟨⟩
    exact ⟨[], (List.append_nil _).symm, by simp, by simp⟩
  | cons key keys ih =>
    have hholds := CredentialStore.holds_get s key
    have hok := source.backend.get_ok s key
    rw [findAll]
    rcases hget : source.get s key with ⟨s₁, result⟩
    rw [hget] at hholds
    dsimp only at hholds
    cases result with
    | ok value =>
      have hvalue : value = source.holds s key.name := hok value (congrArg Prod.snd hget)
      cases value with
      | some v =>
        dsimp only
        obtain ⟨heq, hfound⟩ := ih s₁ (found ++ [(key, v)])
        refine ⟨heq.trans hholds, fun found' hf => ?_⟩
        obtain ⟨more, rfl, hmem, hall⟩ := hfound found' hf
        rw [hholds] at hmem hall
        refine ⟨(key, v) :: more, by simp, ?_, ?_⟩
        · intro p hp
          rcases List.mem_cons.mp hp with rfl | hp
          · exact hvalue.symm
          · exact hmem p hp
        · intro k hk w hw
          rcases List.mem_cons.mp hk with rfl | hk
          · rw [← hvalue, Option.some.injEq] at hw
            rw [hw]
            exact List.mem_cons_self
          · exact List.mem_cons_of_mem _ (hall k hk w hw)
      | none =>
        dsimp only
        obtain ⟨heq, hfound⟩ := ih s₁ found
        refine ⟨heq.trans hholds, fun found' hf => ?_⟩
        obtain ⟨more, rfl, hmem, hall⟩ := hfound found' hf
        rw [hholds] at hmem hall
        refine ⟨more, rfl, hmem, fun k hk w hw => ?_⟩
        rcases List.mem_cons.mp hk with rfl | hk
        · rw [← hvalue] at hw
          cases hw
        · exact hall k hk w hw
    | error e =>
      cases e with
      | unavailable _ => exact ⟨hholds, fun found' hf => by cases hf⟩
      | access _ => exact ⟨hholds, fun found' hf => by cases hf⟩
      | io _ => exact ⟨hholds, fun found' hf => by cases hf⟩
      | format _ => exact ⟨hholds, fun found' hf => by cases hf⟩

def stored (v : Option String) : Option String := v.filter (· != "")

theorem stored_some (v : String) : stored (some v) = if v = "" then none else some v := by
  rw [stored, Option.filter_some]
  by_cases h : v = "" <;> simp [h]

/-- Writing copies the keys in order up to a failure: the target has the values of those that were
written, and what it had under every other name. -/
theorem writeAll_spec (holds : String → Option String) (t : target.State)
    (found : List (SecretKey × String)) (copied : Copied)
    (hfound : ∀ p ∈ found, holds p.1.name = some p.2) :
    ∃ written, written <+: found ∧
      (writeAll target t found copied).2.1 =
        { copied with keys := copied.keys ++ written.map Prod.fst } ∧
      ((writeAll target t found copied).2.2 = none → written = found) ∧
      ∀ name, (name ∈ written.map (·.1.name) ∧
          target.holds (writeAll target t found copied).1 name = stored (holds name)) ∨
        name ∉ written.map (·.1.name) ∧
          target.holds (writeAll target t found copied).1 name = target.holds t name := by
  induction found generalizing t copied with
  | nil =>
    exact ⟨[], List.prefix_rfl, by simp [writeAll], fun _ => rfl, fun name => .inr ⟨by simp, rfl⟩⟩
  | cons p found ih =>
    obtain ⟨key, value⟩ := p
    obtain ⟨hvalue, hrest⟩ := List.forall_mem_cons.mp hfound
    rw [writeAll]
    rcases hset : target.set t key value with ⟨t₁, result⟩
    cases result with
    | error e =>
      have hsame := CredentialStore.holds_set_error (congrArg Prod.snd hset)
      rw [hset] at hsame
      dsimp only at hsame ⊢
      refine ⟨[], List.nil_prefix, by simp, by simp, fun name => .inr ⟨by simp, ?_⟩⟩
      rw [hsame]
    | ok u =>
      have hholds := CredentialStore.holds_set (congrArg Prod.snd hset)
      rw [hset] at hholds
      dsimp only at hholds ⊢
      obtain ⟨written, hpre, hcopied, hall, hnames⟩ := ih t₁
        { copied with keys := copied.keys ++ [key] } hrest
      refine ⟨(key, value) :: written, List.cons_prefix_cons.mpr ⟨rfl, hpre⟩, ?_, ?_, ?_⟩
      · rw [hcopied]
        simp
      · intro hnone
        rw [hall hnone]
      · intro name
        rcases hnames name with ⟨hmem, heq⟩ | ⟨hmem, heq⟩
        · exact .inl ⟨List.mem_cons_of_mem _ hmem, heq⟩
        · rw [hholds name] at heq
          by_cases hn : name = key.name
          · refine .inl ⟨by simp [hn], ?_⟩
            rw [heq, if_pos hn, hn, hvalue, stored_some]
          · refine .inr ⟨?_, by rw [heq, if_neg hn]⟩
            rw [List.map_cons, List.mem_cons, not_or]
            exact ⟨hn, hmem⟩

/-! ## The switch -/

/-- The states that a switch goes through: while it reads, while it writes, while it undoes what it
wrote, while the originals are removed and while the copies are. -/
inductive Point (source target : CredentialStore) (s : source.State) (t : target.State)
    (keys : List SecretKey) : source.State → target.State → Prop
  | reading (k : ℕ) : Point source target s t keys (findAll source s (keys.take k) []).1 t
  | writing (k : ℕ) {s' : source.State} {found : List (SecretKey × String)}
    (h : findAll source s keys [] = (s', .all found)) :
    Point source target s t keys s' (writeAll target t (found.take k) {}).1
  | undoing (k : ℕ) {s' : source.State} {t' : target.State} {found : List (SecretKey × String)}
    {copied : Copied} {error : CredentialError} (h : findAll source s keys [] = (s', .all found))
    (hw : writeAll target t found {} = (t', copied, some error)) :
    Point source target s t keys s' (target.removeKeys t' (copied.keys.take k)).1
  | committing (k : ℕ) {s' : source.State} {t' : target.State} {copied : Copied}
    (h : copySecrets source target s t keys = ((s', t'), .ok copied)) :
    Point source target s t keys (source.removeKeys s' (copied.keys.take k)).1 t'
  | abandoning (k : ℕ) {s' : source.State} {t' : target.State} {copied : Copied}
    (h : copySecrets source target s t keys = ((s', t'), .ok copied)) :
    Point source target s t keys s' (target.removeKeys t' (copied.keys.take k)).1

theorem findAll_all (h : findAll source s keys [] = (s', .all found)) :
    source.holds s' = source.holds s ∧ (∀ p ∈ found, source.holds s p.1.name = some p.2) ∧
      ∀ key ∈ keys, ∀ v, source.holds s key.name = some v → (key, v) ∈ found := by
  obtain ⟨hholds, hfound⟩ := findAll_spec s keys []
  rw [h] at hholds hfound
  obtain ⟨more, rfl, hmem, hall⟩ := hfound found rfl
  exact ⟨hholds, hmem, hall⟩

/-- Where a copy ends: with a source that could not be read, with everything written, or with what
was written undone. -/
theorem copySecrets_cases (source target : CredentialStore) (s : source.State) (t : target.State)
    (keys : List SecretKey) : ∃ s', source.holds s' = source.holds s ∧
      ((copySecrets source target s t keys = ((s', t), .ok { sourceUnavailable := true })) ∨
      (∃ e, findAll source s keys [] = (s', .failed e) ∧
        copySecrets source target s t keys = ((s', t), .error e)) ∨
      ∃ found, findAll source s keys [] = (s', .all found) ∧ ∃ t' copied error,
        writeAll target t found {} = (t', copied, error) ∧
          ((error = none ∧ copySecrets source target s t keys = ((s', t'), .ok copied)) ∨
          ∃ e, error = some e ∧ copySecrets source target s t keys =
            ((s', copied.removeCopies target t'), .error e))) := by
  obtain ⟨hholds, -⟩ := findAll_spec s keys []
  unfold copySecrets
  rcases hf : findAll source s keys [] with ⟨s', found⟩
  rw [hf] at hholds
  refine ⟨s', hholds, ?_⟩
  cases found with
  | unavailable => exact .inl rfl
  | failed e => exact .inr (.inl ⟨e, rfl, rfl⟩)
  | all found =>
    refine .inr (.inr ⟨found, rfl, ?_⟩)
    rcases hw : writeAll target t found {} with ⟨t', copied, error⟩
    refine ⟨t', copied, error, rfl, ?_⟩
    cases error with
    | none => exact .inl ⟨rfl, by simp only [hw]⟩
    | some e => exact .inr ⟨e, rfl, by simp only [hw]⟩

theorem copySecrets_ok (h : copySecrets source target s t keys = ((s', t'), .ok copied)) :
    source.holds s' = source.holds s ∧
      ((copied = { sourceUnavailable := true } ∧ target.holds t' = target.holds t) ∨
        copied.sourceUnavailable = false ∧
        (∀ key ∈ copied.keys, (source.holds s key.name).isSome ∧
          target.holds t' key.name = stored (source.holds s key.name)) ∧
        (∀ key ∈ keys, ∀ v, source.holds s key.name = some v → key ∈ copied.keys) ∧
        ∀ name, name ∉ copied.keys.map SecretKey.name →
          target.holds t' name = target.holds t name) := by
  obtain ⟨s₁, hholds, hc | ⟨e, -, hc⟩ |
    ⟨found, hf, t₁, copied₁, error, hw, ⟨rfl, hc⟩ | ⟨e, -, hc⟩⟩⟩ :=
      copySecrets_cases source target s t keys
  · rw [hc] at h
    cases h
    exact ⟨hholds, .inl ⟨rfl, rfl⟩⟩
  · rw [hc] at h
    cases h
  · rw [hc] at h
    cases h
    obtain ⟨-, hmem, hall⟩ := findAll_all hf
    obtain ⟨written, -, hcopied, hfull, hnames⟩ := writeAll_spec (source.holds s) t found {} hmem
    rw [hw] at hcopied hfull hnames
    obtain rfl := hfull rfl
    dsimp only at hcopied hnames
    subst hcopied
    have hkeys : (written.map Prod.fst).map SecretKey.name = written.map (·.1.name) := by
      rw [List.map_map]
      rfl
    refine ⟨hholds, .inr ⟨rfl, ?_, ?_, ?_⟩⟩
    · intro key hkey
      simp only [List.nil_append] at hkey
      obtain ⟨p, hp, rfl⟩ := List.mem_map.mp hkey
      refine ⟨by rw [hmem p hp]; rfl, ?_⟩
      rcases hnames p.1.name with ⟨-, heq⟩ | ⟨hno, -⟩
      · exact heq
      · exact absurd (List.mem_map_of_mem (f := fun p : SecretKey × String => p.1.name) hp) hno
    · intro key hkey v hv
      simpa using ⟨v, hall key hkey v hv⟩
    · intro name hname
      simp only [List.nil_append, hkeys] at hname
      rcases hnames name with ⟨hmem, -⟩ | ⟨-, heq⟩
      · exact absurd hmem hname
      · exact heq
  · rw [hc] at h
    cases h

theorem removed_original (h : copySecrets source target s t keys = ((s', t'), .ok copied))
    {removed : List SecretKey} (hr : ∀ key ∈ removed, key ∈ copied.keys) (hv : value ≠ "")
    (hs : source.holds s name = some value) :
    source.holds (source.removeKeys s' removed).1 name = some value ∨
      target.holds t' name = some value := by
  obtain ⟨hholds, hcopied⟩ := copySecrets_ok h
  rcases CredentialStore.removeKeys_spec s' removed name with ⟨heq, -⟩ | ⟨⟨key, hkey, rfl⟩, -⟩
  · left
    rw [heq, hholds, hs]
  · right
    rcases hcopied with ⟨rfl, -⟩ | ⟨-, hkeys, -, -⟩
    · exact absurd (hr key hkey) List.not_mem_nil
    · rw [(hkeys key (hr key hkey)).2, hs, stored_some, if_neg hv]

theorem removed_copy {removed : List SecretKey} {u u' : target.State}
    (hr : ∀ key ∈ removed, (source.holds s key.name).isSome) (hs : source.holds s name = none)
    (hu : target.holds u name = some value) (h : u' = (target.removeKeys u removed).1) :
    target.holds u' name = some value := by
  subst h
  rcases CredentialStore.removeKeys_spec u removed name with ⟨heq, -⟩ | ⟨⟨key, hkey, rfl⟩, -⟩
  · rw [heq, hu]
  · have := hr key hkey
    rw [hs] at this
    cases this

theorem written_apart (hfound : ∀ p ∈ found, source.holds s p.1.name = some p.2)
    (hs : source.holds s name = none) (ht : target.holds t name = some value) :
    target.holds (writeAll target t found {}).1 name = some value := by
  obtain ⟨written, hpre, -, -, hnames⟩ := writeAll_spec (source.holds s) t found {} hfound
  rcases hnames name with ⟨hmem, -⟩ | ⟨-, heq⟩
  · obtain ⟨p, hp, rfl⟩ := List.mem_map.mp hmem
    rw [hfound p (hpre.subset hp)] at hs
    cases hs
  · rw [heq, ht]

/-- At every point of a switch each secret of the source is in one of the stores, and each that only
the target had is still there. -/
theorem Point.readable (h : Point source target s t keys s' t') (hv : value ≠ "") :
    (source.holds s name = some value →
      source.holds s' name = some value ∨ target.holds t' name = some value) ∧
    (source.holds s name = none → target.holds t name = some value →
      target.holds t' name = some value) := by
  cases h with
  | reading k =>
    have hholds := (findAll_spec s (keys.take k) []).1
    exact ⟨fun hs => .inl (by rw [hholds, hs]), fun _ ht => ht⟩
  | writing k hf =>
    obtain ⟨hholds, hmem, -⟩ := findAll_all hf
    refine ⟨fun hs => .inl (by rw [hholds, hs]), fun hs ht => ?_⟩
    exact written_apart (fun p hp => hmem p (List.mem_of_mem_take hp)) hs ht
  | @undoing k _ t₁ found copied error hf hw =>
    obtain ⟨hholds, hmem, -⟩ := findAll_all hf
    refine ⟨fun hs => .inl (by rw [hholds, hs]), fun hs ht => ?_⟩
    have hkept := written_apart hmem hs ht
    obtain ⟨written, hpre, hcopied, -⟩ := writeAll_spec (source.holds s) t found {} hmem
    rw [hw] at hkept hcopied
    refine removed_copy (fun key hkey => ?_) hs hkept rfl
    dsimp only at hcopied
    subst hcopied
    have hkey := List.mem_of_mem_take hkey
    simp only [List.nil_append] at hkey
    obtain ⟨p, hp, rfl⟩ := List.mem_map.mp hkey
    rw [hmem p (hpre.subset hp)]
    rfl
  | committing k hc =>
    refine ⟨fun hs => removed_original hc (fun key hkey => List.mem_of_mem_take hkey) hv hs, ?_⟩
    intro hs ht
    obtain ⟨-, ⟨rfl, heq⟩ | ⟨-, hkeys, -, hrest⟩⟩ := copySecrets_ok hc
    · rw [heq, ht]
    · rw [hrest name, ht]
      intro hmem
      obtain ⟨key, hkey, rfl⟩ := List.mem_map.mp hmem
      have := (hkeys key hkey).1
      rw [hs] at this
      cases this
  | abandoning k hc =>
    obtain ⟨hholds, hcopied⟩ := copySecrets_ok hc
    refine ⟨fun hs => .inl (by rw [hholds, hs]), fun hs ht => ?_⟩
    rcases hcopied with ⟨rfl, heq⟩ | ⟨-, hkeys, -, hrest⟩
    · rw [List.take_nil]
      exact (congrFun heq name).trans ht
    · refine removed_copy (fun key hkey => (hkeys key (List.mem_of_mem_take hkey)).1) hs ?_ rfl
      rw [hrest name, ht]
      intro hmem
      obtain ⟨key, hkey, rfl⟩ := List.mem_map.mp hmem
      have := (hkeys key hkey).1
      rw [hs] at this
      cases this

/-- Switching the store loses no secret. A copy never changes the source. When it fails, the target
has none of the copies made whose deletion did not fail too; when it succeeds with a source that was
read, the target has the source's value for every key listed, unless that value is empty; removing
the originals takes only what the target has, and removing the copies leaves the source alone. At
every point each secret is in one of the stores. -/
theorem switch_loses_nothing (source target : CredentialStore) (s : source.State)
    (t : target.State) (keys : List SecretKey) :
    let r := copySecrets source target s t keys
    source.holds r.1.1 = source.holds s ∧
    (∀ e, r.2 = .error e →
      (∃ s', findAll source s keys [] = (s', .failed e)) ∧ r.1.2 = t ∨
      ∃ s' found t' copied, findAll source s keys [] = (s', .all found) ∧
        writeAll target t found {} = (t', copied, some e) ∧
        r.1.2 = copied.removeCopies target t' ∧
        ∀ key ∈ copied.keys, target.holds r.1.2 key.name = none ∨
          ∃ e', (key, .error e') ∈ (target.removeKeys t' copied.keys).2) ∧
    (∀ copied, r.2 = .ok copied → copied.sourceUnavailable = false →
      ∀ key ∈ keys, ∀ value, source.holds s key.name = some value → value ≠ "" →
        target.holds r.1.2 key.name = some value) ∧
    (∀ copied, r.2 = .ok copied → ∀ name value, source.holds s name = some value → value ≠ "" →
      source.holds (copied.removeOriginals source r.1.1) name = some value ∨
        target.holds r.1.2 name = some value) ∧
    ∀ s' t', Point source target s t keys s' t' → ∀ name value, value ≠ "" →
      (source.holds s name = some value →
        source.holds s' name = some value ∨ target.holds t' name = some value) ∧
      (source.holds s name = none → target.holds t name = some value →
        target.holds t' name = some value) := by
  intro r
  have hsource : source.holds r.1.1 = source.holds s := by
    obtain ⟨s', hholds, hc | ⟨e, -, hc⟩ | ⟨found, -, t', copied, error, -, ⟨-, hc⟩ | ⟨e, -, hc⟩⟩⟩ :=
      copySecrets_cases source target s t keys
    all_goals
      change source.holds (copySecrets source target s t keys).1.1 = source.holds s
      rw [hc, hholds]
  refine ⟨hsource, ?_, ?_, ?_, fun s' t' h name value hv => h.readable hv⟩
  · intro e he
    obtain ⟨s', -, hc | ⟨e', hf, hc⟩ | ⟨found, hf, t', copied, error, hw, hc⟩⟩ :=
      copySecrets_cases source target s t keys
    · have hr : r = ((s', t), .ok { sourceUnavailable := true }) := hc
      rw [hr] at he
      cases he
    · have hr : r = ((s', t), .error e') := hc
      rw [hr] at he ⊢
      cases he
      exact .inl ⟨⟨s', hf⟩, rfl⟩
    · rcases hc with ⟨-, hc⟩ | ⟨e', rfl, hc⟩
      · have hr : r = ((s', t'), .ok copied) := hc
        rw [hr] at he
        cases he
      · have hr : r = ((s', copied.removeCopies target t'), .error e') := hc
        rw [hr] at he ⊢
        cases he
        refine .inr ⟨s', found, t', copied, hf, hw, rfl, fun key hkey => ?_⟩
        rcases CredentialStore.removeKeys_spec t' copied.keys key.name with ⟨-, hfail⟩ | ⟨-, hnone⟩
        · exact .inr (hfail key hkey rfl)
        · exact .inl hnone
  · intro copied hc havail key hkey value hvalue hne
    obtain ⟨-, ⟨rfl, -⟩ | ⟨-, hkeys, hall, -⟩⟩ := copySecrets_ok (Prod.ext rfl hc)
    · cases havail
    · rw [(hkeys key (hall key hkey value hvalue)).2, hvalue, stored_some, if_neg hne]
  · intro copied hc name value hvalue hne
    exact removed_original (Prod.ext rfl hc) (fun key hkey => hkey) hne hvalue

/-! ## A store in memory -/

/-- Secrets kept in memory; `unavailable` makes every call fail. -/
def memoryBackend (unavailable : Bool) : CredentialBackend where
  State := String → Option String
  holds s := s
  get s key := (s, if unavailable then .error (.unavailable "test backend") else .ok (s key.name))
  set s key value :=
    if unavailable then (s, .error (.unavailable "test backend"))
    else (Function.update s key.name (some value), .ok ())
  delete s key :=
    if unavailable then (s, .error (.unavailable "test backend"))
    else (Function.update s key.name none, .ok ())
  holds_get _ _ := rfl
  get_ok s key value h := by cases unavailable <;> simp_all
  set_ok s key value h := by cases unavailable <;> simp_all
  set_error s key value e h := by cases unavailable <;> simp_all
  delete_ok s key h := by cases unavailable <;> simp_all
  delete_error s key e h := by cases unavailable <;> simp_all

/-- A secret that is empty in the source is not copied but deleted in the target. -/
theorem empty_secret_not_copied : ¬∀ (source target : CredentialStore) (s : source.State)
    (t : target.State) (keys : List SecretKey) (copied : Copied),
    (copySecrets source target s t keys).2 = .ok copied → copied.sourceUnavailable = false →
      ∀ key ∈ keys, ∀ value, source.holds s key.name = some value →
        target.holds (copySecrets source target s t keys).1.2 key.name = some value := by
  intro h
  have hcopied := h ⟨memoryBackend false⟩ ⟨memoryBackend false⟩ (fun _ => some "") (fun _ => none)
    [.saslPassword "ircnet"] ⟨[.saslPassword "ircnet"], false⟩ rfl rfl
    (.saslPassword "ircnet") (List.mem_singleton_self _) "" rfl
  cases hcopied

end CayenChat.Storage
