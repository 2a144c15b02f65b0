import CayenChat.Storage.Profile

/-! # The settings file

How a settings file is read, migrated and repaired. The appearance and the
preferences that are only read and kept are parameters.
-/

namespace CayenChat.Storage

open Json

def settingsVersion : ℕ := 15
def minSettingsVersion : ℕ := 11

def ircnetId : String := "ircnet"
def ircnetIpv6Id : String := "ircnet-ipv6"

def legacyIrcnetHosts : List (String × String) :=
  [(ircnetId, "irc.ircnet.ne.jp"), (ircnetIpv6Id, "irc6.ircnet.ne.jp")]

def hoverPopupColor : String := "#1B1D20"
def hoverPopupLinkColor : String := "#78AAFF"

/-- The parts of the settings that have nothing to do with servers, and the words in which the
reader says what it could not read. -/
structure Parts where
  Appearance : Type
  Preferences : Type
  appearance : Option Json → Option Appearance
  cleanAppearance : Appearance → Appearance
  validate : Appearance → Except String Unit
  preferences : Json → Option Preferences
  complaint : Json → String

structure ImageUpload where
  provider : Option String
  tokenSaved : Option (List String)
  deriving DecidableEq, Repr

namespace ImageUpload

def ofJson (v : Json) : Option ImageUpload := do
  let slot ← slots ["provider", "token_saved"] [] v
  some
    { provider := ← optional (nullable asStr) none (slot "provider")
      tokenSaved := ← optional (nullable (Json.list asStr)) none (slot "token_saved") }

def cleanNotes (upload : ImageUpload) : ImageUpload :=
  { upload with
    tokenSaved := some ((Distinct.retainFirst (byteLen · ≤ 64) id (fun _ => true) []
      (upload.tokenSaved.getD upload.provider.toList)).take 64) }

end ImageUpload

structure Experimental where
  debugLogging : Bool := false
  stderrFile : Option String := none
  autoPhrase : Bool := false
  deriving DecidableEq, Repr

def Experimental.ofJson (v : Json) : Option Experimental := do
  let slot ← slots ["debug_logging", "stderr_file", "auto_phrase"] [] v
  some
    { debugLogging := ← optional asBool false (slot "debug_logging")
      stderrFile := ← optional (nullable asStr) none (slot "stderr_file")
      autoPhrase := ← optional asBool false (slot "auto_phrase") }

structure ConversationLog where
  channels : Bool := false
  «private» : Bool := false
  directory : Option String := none
  deriving DecidableEq, Repr

def ConversationLog.ofJson (v : Json) : Option ConversationLog := do
  let slot ← slots ["channels", "private", "directory"] [] v
  some
    { channels := ← optional asBool false (slot "channels")
      «private» := ← optional asBool false (slot "private")
      directory := ← optional (nullable asStr) none (slot "directory") }

/-- The identity all servers shared in versions 11 and 12. -/
structure LegacyIdentity where
  nickname : String := ""
  username : String := ""
  channels : String := ""
  saslEnabled : Bool := false
  saslUsername : String := ""
  connectOnStartup : Bool := false
  deriving DecidableEq, Repr

def LegacyIdentity.ofJson (v : Json) : Option LegacyIdentity := do
  some
    { nickname := ← optional asStr "" (v.get "nickname")
      username := ← optional asStr "" (v.get "username")
      channels := ← optional asStr "" (v.get "channels")
      saslEnabled := ← optional asBool false (v.get "sasl_enabled")
      saslUsername := ← optional asStr "" (v.get "sasl_username")
      connectOnStartup := ← optional asBool false (v.get "connect_on_startup") }

structure Settings (parts : Parts) where
  version : ℕ
  selectedServer : String
  servers : List ServerProfile
  appearance : parts.Appearance
  imageUpload : ImageUpload
  experimental : Experimental
  conversationLog : ConversationLog
  preferences : parts.Preferences
  legacy : LegacyIdentity

variable {parts : Parts}

namespace Settings

/-- Settings are read from an object only. -/
def ofJson (parts : Parts) (v : Json) : Option (Settings parts) := do
  let _ ← v.asObj
  some
    { version := ← optional (unsigned (2 ^ 32 - 1)) settingsVersion (v.get "version")
      selectedServer := ← optional asStr "" (v.get "selected_server")
      servers := ← optional (Json.list ServerProfile.ofJson) [] (v.get "servers")
      appearance := ← parts.appearance (v.get "appearance")
      imageUpload := ← optional ImageUpload.ofJson ⟨none, some []⟩ (v.get "image_upload")
      experimental := ← optional Experimental.ofJson {} (v.get "experimental")
      conversationLog := ← optional ConversationLog.ofJson {} (v.get "conversation_log")
      preferences := ← parts.preferences v
      legacy := ← LegacyIdentity.ofJson v }

def isPreset (server : ServerProfile) : Bool := server.id = ircnetId || server.id = ircnetIpv6Id

/-- The host an old file meant by a preset; one that was selected is there. -/
def restorePreset (selected : String) (servers : List ServerProfile) (preset : String × String) :
    List ServerProfile :=
  if servers.any (·.id = preset.1) then
    let renamed := fun server : ServerProfile => { server with host := preset.2 }
    servers.modify (servers.findIdx (·.id = preset.1)) renamed
  else if selected = preset.1 then servers ++ [ServerProfile.new preset.1 preset.2]
  else servers

/-- Old files listed both presets always; the ones in use stay, after the others. -/
def migratePresets (selected : String) (servers : List ServerProfile) : List ServerProfile :=
  let kept := (legacyIrcnetHosts.foldl (restorePreset selected) servers).filter fun s =>
    !isPreset s || s.id = selected || s.serverPasswordSaved || s.saslPasswordSaved ||
      s.saslKeySaved
  kept.filter (!isPreset ·) ++ kept.filter isPreset

def retainServers (servers : List ServerProfile) : List ServerProfile :=
  Distinct.retainFirst (·.id ≠ "") ServerProfile.id (·.port ≠ 0) [] servers

/-- The identity that was shared goes to the server it was used with. -/
def takeIdentity (legacy : LegacyIdentity) (server : ServerProfile) : ServerProfile :=
  { server with
    nickname := legacy.nickname
    username := legacy.username
    channels := legacy.channels
    saslUsername := legacy.saslUsername
    saslEnabled := legacy.saslEnabled && server.useTls
    connectOnStartup := legacy.connectOnStartup }

def identityOwner (selected : String) (servers : List ServerProfile) : Option String :=
  if servers.any (·.id = selected) then some selected
  else match servers with
    | [only] => some only.id
    | _ => none

/-- What every load repairs. -/
def normalize (s : Settings parts) : Settings parts :=
  let migrateIdentity : Bool := s.version ≤ 12
  let servers := retainServers s.servers
  let servers := if migrateIdentity then migratePresets s.selectedServer servers else servers
  let servers := servers.filter fun server => trim server.host ≠ ""
  let servers := servers.map fun server =>
    server.verifyWithoutTls.cleanChannelCharsets.cleanKeyedChannels
  let owner := identityOwner s.selectedServer servers
  let selected := if servers.any (·.id = s.selectedServer) then s.selectedServer
    else (servers.head?.map ServerProfile.id).getD ""
  let servers := if migrateIdentity then
      servers.modify (servers.findIdx fun server => some server.id = owner)
        (takeIdentity s.legacy)
    else servers
  { s with
    version := settingsVersion
    selectedServer := selected
    servers := servers.map ServerProfile.saslNeedsTls
    appearance := parts.cleanAppearance s.appearance
    imageUpload := s.imageUpload.cleanNotes
    legacy := {} }

end Settings

/-- The switch for user avatars, once one for all servers, goes to every server without its own. -/
def moveLegacyUserAvatars (v : Json) : Json :=
  match ((v.get "appearance").bind asObj).bind (·.lookup "user_avatars") with
  | none => v
  | some old =>
    (v.adjust "appearance" (remove "user_avatars")).adjust "servers" fun servers =>
      match servers with
      | .arr items => .arr (items.map (orInsert "user_avatars" (.bool (old.asBool.getD false))))
      | servers => servers

def replaceColor (key : String) (old : List String) (new : String) (colors : Json) : Json :=
  if ((colors.get key).bind asStr).any fun value => old.any (eqIgnoreAsciiCase · value) then
    colors.adjust key fun _ => .str new
  else colors

def migrateHoverPopupDefaults (v : Json) : Json :=
  v.adjust "appearance" fun appearance =>
    if (appearance.get "url_tooltip_text_color").isSome then appearance
    else
      ((appearance
        |> replaceColor "url_tooltip_color" ["#FFFFFF", "#2A2D32"] hoverPopupColor)
        |> replaceColor "url_tooltip_link_color" ["#0645AD"] hoverPopupLinkColor).adjust "dark"
        fun dark => (dark
          |> replaceColor "url_tooltip_color" ["#2A2D32"] hoverPopupColor)
          |> replaceColor "url_tooltip_link_color" ["#78AAFF"] hoverPopupLinkColor

def migrated (v : Json) : Json := migrateHoverPopupDefaults (moveLegacyUserAvatars v)

/-- Reads and migrates a settings file. The last words say what was left unchanged. -/
def parseSettings (parts : Parts) (parse : List UInt8 → Except String Json) (bytes : List UInt8)
    (unchanged : String) : Except String (Settings parts) :=
  match parse bytes with
  | .error error => .error ("Could not parse settings: " ++ error)
  | .ok value =>
    let value := migrated value
    let version := (value.get "version").bind asUnsigned
    let supported := toString minSettingsVersion ++ "–" ++ toString settingsVersion
    if version.any (minSettingsVersion ≤ ·) &&
        ((value.get "servers").bind asArr).any (·.any fun server =>
          (server.get "server_password").isSome || (server.get "sasl_password").isSome) then
      .error ("Settings contain plaintext password fields from an unsupported format. " ++
        "Restore a supported settings file or start with fresh settings. " ++ unchanged)
    else
      match version with
      | some version =>
        if version < minSettingsVersion then
          .error ("Settings version " ++ toString version ++ " is older than this app supports (" ++
            supported ++ "). Start with fresh settings or restore a backup from a supported " ++
            "version. " ++ unchanged)
        else if settingsVersion < version then
          .error ("Settings version " ++ toString version ++ " is newer than this app supports (" ++
            supported ++ "). Update CayenChat to a version that supports these settings. " ++
            unchanged)
        else
          match Settings.ofJson parts value with
          | some settings => .ok settings.normalize
          | none => .error ("Could not parse settings: " ++ parts.complaint value)
      | none =>
        .error ("The settings version is missing or invalid; this app supports versions " ++
          supported ++ ". Restore a valid settings file from a backup. " ++ unchanged)

end CayenChat.Storage
