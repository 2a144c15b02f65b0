import CayenChat.Lib.Cutoff
import CayenChat.Lib.Machine

/-! # The avatar directory

Which avatar a line may show: the tables of a network with the current and the
retired occupancies of its nicknames, bounded by dropping the earliest-ended
quarter at once, and the pictures of names whose owners are not known.
-/

namespace CayenChat.Avatars

def MAX_CURRENT_AVATARS : ℕ := 2048
def MAX_RETIRED_AVATARS : ℕ := 512
def MAX_PEER_AVATARS : ℕ := 2048

structure Occupancy where
  avatar : String
  since : ℕ
  deriving DecidableEq

structure Retired where
  avatar : String
  since : ℕ
  «until» : ℕ
  deriving DecidableEq

structure NetworkAvatars where
  current : Map String Occupancy := ∅
  retired : Map String Retired := ∅
  peer : Map String (String × ℕ) := ∅
  peerClock : ℕ := 0

instance : Inhabited NetworkAvatars := ⟨{}⟩

namespace NetworkAvatars

def isEmpty (avatars : NetworkAvatars) : Bool :=
  avatars.current.entries.isEmpty && avatars.retired.entries.isEmpty &&
    avatars.peer.entries.isEmpty

/-- The names left after the least recently set quarter is dropped, where there are too many. -/
def recentPeers (avatars : NetworkAvatars) : Map String (String × ℕ) :=
  if MAX_PEER_AVATARS ≤ avatars.peer.entries.length then
    let cutoff := Cutoff.rank (MAX_PEER_AVATARS / 4) ((Map.values avatars.peer).map Prod.snd)
    Map.keepValues (fun picture => cutoff < picture.2) avatars.peer
  else avatars.peer

def setPeer (avatars : NetworkAvatars) (key : String) : Option String → NetworkAvatars
  | none => { avatars with peer := avatars.peer.erase key }
  | some avatar =>
    let stamp := avatars.peerClock + 1
    if (avatars.peer.lookup key).isSome then
      { avatars with peer := avatars.peer.insert key (avatar, stamp), peerClock := stamp }
    else
      { avatars with peer := avatars.recentPeers.insert key (avatar, stamp), peerClock := stamp }

def ended (avatars : NetworkAvatars) (key : String) (occupancy : Occupancy) (next : ℕ) :
    Map String Retired :=
  avatars.retired.insert key ⟨occupancy.avatar, occupancy.since, next⟩

def ends (retired : Map String Retired) : List ℕ := (Map.values retired).map Retired.«until»

/-- What is left of the retired occupancies when the earliest-ended quarter is dropped, where there
are too many. -/
def evict (retired : Map String Retired) : Map String Retired :=
  if MAX_RETIRED_AVATARS < retired.entries.length then
    let cutoff := Cutoff.rank (MAX_RETIRED_AVATARS / 4) (ends retired)
    Map.keepValues (fun retired => cutoff < retired.«until») retired
  else retired

def retire (avatars : NetworkAvatars) (key : String) (next : ℕ) : NetworkAvatars :=
  match avatars.current.lookup key with
  | none => avatars
  | some occupancy =>
    let avatars := { avatars with current := avatars.current.erase key }
    if next ≤ occupancy.since then avatars
    else { avatars with retired := evict (avatars.ended key occupancy next) }

/-- A user's avatar set or removed. -/
def set (avatars : NetworkAvatars) (key : String) (avatar : Option String) (next : ℕ) :
    NetworkAvatars :=
  match avatar with
  | some avatar =>
    match avatars.current.lookup key with
    | some occupancy =>
      { avatars with current := avatars.current.insert key { occupancy with avatar } }
    | none =>
      if avatars.current.entries.length < MAX_CURRENT_AVATARS then
        { avatars with current := avatars.current.insert key ⟨avatar, next⟩ }
      else avatars
  | none => avatars.retire key next

def rename (avatars : NetworkAvatars) («from» «to» : String) (next : ℕ) : NetworkAvatars :=
  let avatar := (avatars.current.lookup «from»).map Occupancy.avatar
  let avatars := (avatars.retire «from» next).retire «to» next
  match avatar with
  | some avatar => { avatars with current := avatars.current.insert «to» ⟨avatar, next⟩ }
  | none => avatars

def endAll (avatars : NetworkAvatars) (keys : List String) (next : ℕ) : NetworkAvatars :=
  keys.foldl (fun avatars key => avatars.retire key next) avatars

def picture (avatars : NetworkAvatars) (key : String) : Option String :=
  (avatars.peer.lookup key).map Prod.fst

def forMessage (avatars : NetworkAvatars) (key : String) (sequence : ℕ) : Option String :=
  match (avatars.current.lookup key).filter fun occupancy => occupancy.since ≤ sequence with
  | some occupancy => some occupancy.avatar
  | none =>
    (((avatars.retired.lookup key).filter fun retired =>
      retired.since ≤ sequence && sequence < retired.«until»).map Retired.avatar).or
        (avatars.picture key)

end NetworkAvatars

/-- The tables of the networks. -/
structure AvatarDirectory where
  networks : Map ℕ NetworkAvatars := ∅

namespace AvatarDirectory

def avatars (directory : AvatarDirectory) (network : ℕ) : NetworkAvatars :=
  (directory.networks.lookup network).getD default

/-- The tables of a network put in place, or taken away when they are empty. -/
def settle (directory : AvatarDirectory) (network : ℕ) (avatars : NetworkAvatars) :
    AvatarDirectory :=
  if avatars.isEmpty then ⟨directory.networks.erase network⟩
  else ⟨directory.networks.insert network avatars⟩

def set (directory : AvatarDirectory) (network : ℕ) (key : String) (avatar : Option String)
    (next : ℕ) : AvatarDirectory :=
  directory.settle network ((directory.avatars network).set key avatar next)

def setPeer (directory : AvatarDirectory) (network : ℕ) (key : String) (avatar : Option String) :
    AvatarDirectory :=
  directory.settle network ((directory.avatars network).setPeer key avatar)

def rename (directory : AvatarDirectory) (network : ℕ) («from» «to» : String) (next : ℕ) :
    AvatarDirectory :=
  match directory.networks.lookup network with
  | none => directory
  | some avatars => ⟨directory.networks.insert network (avatars.rename «from» «to» next)⟩

def endAll (directory : AvatarDirectory) (network : ℕ) (keys : List String) (next : ℕ) :
    AvatarDirectory :=
  match directory.networks.lookup network with
  | none => directory
  | some avatars => ⟨directory.networks.insert network (avatars.endAll keys next)⟩

def forMessage (directory : AvatarDirectory) (network : ℕ) (key : String) (sequence : ℕ) :
    Option String :=
  match directory.networks.lookup network with
  | none => none
  | some avatars => avatars.forMessage key sequence

end AvatarDirectory

/-- A call that changes the directory. The disconnect of a network comes with the order in which
the keys of its table of current occupancies are walked. -/
inductive DirectoryCall where
  | set (network : ℕ) (key : String) (avatar : Option String) (next : ℕ)
  | rename (network : ℕ) («from» «to» : String) (next : ℕ)
  | endAll (network : ℕ) (keys : List String) (next : ℕ)
  | setPeer (network : ℕ) (key : String) (avatar : Option String)

namespace DirectoryCall

def next : DirectoryCall → Option ℕ
  | set _ _ _ next | rename _ _ _ next | endAll _ _ next => some next
  | setPeer .. => none

def network : DirectoryCall → ℕ
  | set network .. | rename network .. | endAll network .. | setPeer network .. => network

end DirectoryCall

def NetworkAvatars.call (avatars : NetworkAvatars) : DirectoryCall → NetworkAvatars
  | .set _ key avatar next => avatars.set key avatar next
  | .rename _ «from» «to» next => avatars.rename «from» «to» next
  | .endAll _ keys next => avatars.endAll keys next
  | .setPeer _ key avatar => avatars.setPeer key avatar

def AvatarDirectory.call (directory : AvatarDirectory) : DirectoryCall → AvatarDirectory
  | .set network key avatar next => directory.set network key avatar next
  | .rename network «from» «to» next => directory.rename network «from» «to» next
  | .endAll network keys next => directory.endAll network keys next
  | .setPeer network key avatar => directory.setPeer network key avatar

def DirectoryCall.Walks (avatars : NetworkAvatars) : DirectoryCall → Prop
  | .endAll _ keys _ => keys.Perm avatars.current.keys
  | _ => True

namespace NetworkAvatars

/-- The tables with the clock of the names as it is after empty tables were taken away. -/
def tidied (avatars : NetworkAvatars) : NetworkAvatars :=
  if avatars.isEmpty then default else avatars

variable {avatars : NetworkAvatars}

theorem tidied_cases (avatars : NetworkAvatars) : avatars.tidied = avatars ∨
    (avatars.tidied = default ∧ avatars.current = ∅ ∧ avatars.retired = ∅ ∧ avatars.peer = ∅) := by
  unfold tidied isEmpty
  split_ifs with h
  · simp only [Bool.and_eq_true, List.isEmpty_iff] at h
    exact .inr ⟨rfl, AList.ext h.1.1, AList.ext h.1.2, AList.ext h.2⟩
  · exact .inl rfl

@[simp] theorem tidied_current : avatars.tidied.current = avatars.current := by
  rcases tidied_cases avatars with h | ⟨h, hc, -⟩
  · rw [h]
  · rw [h, hc]; rfl

@[simp] theorem tidied_retired : avatars.tidied.retired = avatars.retired := by
  rcases tidied_cases avatars with h | ⟨h, -, hr, -⟩
  · rw [h]
  · rw [h, hr]; rfl

@[simp] theorem tidied_peer : avatars.tidied.peer = avatars.peer := by
  rcases tidied_cases avatars with h | ⟨h, -, -, hp⟩
  · rw [h]
  · rw [h, hp]; rfl

end NetworkAvatars

end CayenChat.Avatars
