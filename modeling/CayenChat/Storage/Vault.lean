import CayenChat.Lib.Map
import CayenChat.Lib.Machine

/-! # The credential vault

Every secret in one store entry, with what earlier versions left in entries of
their own. Calls of the store may fail without effect, and a new process reads
everything again. The text of the vault entry is what it parses to.
-/

namespace CayenChat.Storage

/-- Errors carry only sanitized descriptions. -/
inductive CredentialError
  | unavailable (detail : String)
  | access (detail : String)
  | io (detail : String)
  | format (detail : String)
  deriving DecidableEq, Repr

/-- Stable logical name of a secret. -/
inductive SecretKey
  | serverPassword (profile : String)
  | saslPassword (profile : String)
  | saslKey (profile : String)
  | uploaderToken (provider account : String)
  | channelKey (profile channel : String)
  deriving DecidableEq, Repr

def SecretKey.name : SecretKey → String
  | serverPassword profile => "connection/" ++ profile ++ "/server-password"
  | saslPassword profile => "connection/" ++ profile ++ "/sasl-password"
  | saslKey profile => "connection/" ++ profile ++ "/sasl-key"
  | uploaderToken provider account => "uploader/" ++ provider ++ "/" ++ account ++ "/credential"
  | channelKey profile channel => "connection/" ++ profile ++ "/channel-key/" ++ channel

def vaultEntry : String := "secrets"

abbrev Secrets := Map String String

def secretsFileVersion : ℕ := 1

/-- The text of the vault entry: a file of secrets, or something else. -/
inductive VaultText
  | file (version : ℕ) (secrets : Secrets)
  | malformed

def VaultText.decode : VaultText → Except CredentialError Secrets
  | file version secrets =>
    if version = secretsFileVersion then .ok secrets
    else .error (.format ("unsupported credential file version " ++ toString version))
  | malformed => .error (.format "the stored credentials are not valid")

def VaultText.encode (secrets : Secrets) : VaultText := file secretsFileVersion secrets

/-- The entries of the store: the vault entry, and those of single secrets. -/
structure Entries where
  vault : Option VaultText := none
  separate : Map String String := ∅

/-- The calls of the store that fail during one operation. -/
structure Faults where
  readVault : Option CredentialError := none
  read : Option CredentialError := none
  write : Option CredentialError := none
  remove : Option CredentialError := none
  deriving DecidableEq, Repr

structure VaultState where
  /-- Nothing until the vault entry has been read. -/
  secrets : Option Secrets := none
  /-- Names already looked up, or cleared, as separate entries. -/
  separateChecked : Finset String := ∅

/-- The backend over its entries. -/
structure VaultBackend where
  entries : Entries
  state : VaultState := {}

namespace VaultBackend

/-- The secrets, read from the store once. -/
def loaded (b : VaultBackend) (faults : Faults) : Except CredentialError (VaultBackend × Secrets) :=
  match b.state.secrets with
  | some secrets => .ok (b, secrets)
  | none =>
    match faults.readVault with
    | some error => .error error
    | none =>
      match (b.entries.vault.map VaultText.decode).getD (.ok ∅) with
      | .error error => .error error
      | .ok secrets => .ok ({ b with state := { b.state with secrets := some secrets } }, secrets)

/-- Writes the vault; memory changes only after it is stored. -/
def store (b : VaultBackend) (faults : Faults) (secrets : Secrets) :
    Except CredentialError VaultBackend :=
  match faults.write with
  | some error => .error error
  | none => .ok {
      entries := { b.entries with vault := some (.encode secrets) }
      state := { b.state with secrets := some secrets } }

def check (b : VaultBackend) (name : String) : VaultBackend :=
  { b with state := { b.state with separateChecked := insert name b.state.separateChecked } }

def remove (b : VaultBackend) (faults : Faults) (name : String) : Except CredentialError VaultBackend :=
  match faults.remove with
  | some error => .error error
  | none => .ok { b with entries := { b.entries with separate := b.entries.separate.erase name } }

def clearSeparate (b : VaultBackend) (faults : Faults) (name : String) : VaultBackend :=
  if name ∈ b.state.separateChecked then b
  else
    match (b.check name).remove faults name with
    | .ok b => b
    | .error _ => b.check name

/-- Looks a separate entry up and moves it into the vault. -/
def adopt (b : VaultBackend) (faults : Faults) (secrets : Secrets) (name : String) :
    VaultBackend × Except CredentialError (Option String) :=
  match faults.read with
  | some error => (b, .error error)
  | none =>
    match b.entries.separate.lookup name with
    | none => (b.check name, .ok none)
    | some value =>
      match b.store faults (secrets.insert name value) with
      | .ok b => (b.clearSeparate faults name, .ok (some value))
      | .error _ => (b, .ok (some value))

def get (b : VaultBackend) (faults : Faults) (key : SecretKey) :
    VaultBackend × Except CredentialError (Option String) :=
  match b.loaded faults with
  | .error error => (b, .error error)
  | .ok (b, secrets) =>
    match secrets.lookup key.name with
    | some value => (b, .ok (some value))
    | none =>
      if key.name ∈ b.state.separateChecked then (b, .ok none)
      else b.adopt faults secrets key.name

def set (b : VaultBackend) (faults : Faults) (key : SecretKey) (value : String) :
    VaultBackend × Except CredentialError Unit :=
  match b.loaded faults with
  | .error error => (b, .error error)
  | .ok (b, secrets) =>
    if secrets.lookup key.name = some value then (b.clearSeparate faults key.name, .ok ())
    else
      match b.store faults (secrets.insert key.name value) with
      | .error error => (b, .error error)
      | .ok b => (b.clearSeparate faults key.name, .ok ())

/-- Removes the separate entry of a deleted secret, unless it was looked up before. -/
def deleteSeparate (b : VaultBackend) (faults : Faults) (name : String) :
    VaultBackend × Except CredentialError Unit :=
  if name ∈ b.state.separateChecked then (b, .ok ())
  else
    match (b.check name).remove faults name with
    | .ok b => (b, .ok ())
    | .error error => (b.check name, .error error)

def delete (b : VaultBackend) (faults : Faults) (key : SecretKey) :
    VaultBackend × Except CredentialError Unit :=
  match b.loaded faults with
  | .error error => (b, .error error)
  | .ok (b, secrets) =>
    if (secrets.lookup key.name).isSome then
      match b.store faults (secrets.erase key.name) with
      | .error error => (b, .error error)
      | .ok b => b.deleteSeparate faults key.name
    else b.deleteSeparate faults key.name

def restart (b : VaultBackend) : VaultBackend := { entries := b.entries }

end VaultBackend

end CayenChat.Storage
