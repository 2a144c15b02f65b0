import CayenChat.Storage.Settings

/-! # Importing settings

A settings file read for import replaces the whole configuration. Its servers
get fresh ids and no password notes; a list that loading would shorten is
refused.
-/

namespace CayenChat.Storage

open Json

def maxImportServers : ℕ := 256

/-- A settings file read for import. -/
structure Import (parts : Parts) where
  settings : Settings parts
  /-- The version the file declared. -/
  sourceVersion : ℕ
  /-- The file named paths of the machine it came from. -/
  droppedLocalPaths : Bool

/-- Refuses a server list that loading would shorten. -/
def checkServers : ℕ → List String → List Json → Except String Unit
  | _, _, [] => .ok ()
  | number, ids, server :: servers =>
    let text (key : String) := (server.get key).bind asStr
    let id := (text "id").getD ""
    if id = "" then .error ("Server " ++ toString number ++ " has no id.")
    else if id ∈ ids then
      .error ("Server " ++ toString number ++ " repeats the id \x22" ++ id ++ "\x22.")
    else if (text "host").all (trim · = "") then
      .error ("Server " ++ toString number ++ " has no host.")
    else if (server.get "port").bind asUnsigned = some 0 then
      .error ("Server " ++ toString number ++ " has port 0.")
    else checkServers (number + 1) (id :: ids) servers

def freshId (uuid : String) : String := "custom-" ++ uuid

/-- A profile under a fresh id; the passwords stay on the machine they were saved on. -/
def ServerProfile.imported (uuid : String) (server : ServerProfile) : ServerProfile :=
  { server with
    id := freshId uuid
    rememberPasswords := false
    serverSaved := false
    saslSaved := false
    saslKeySaved := false }

/-- The settings under fresh ids, without what belongs to the machine they came from. -/
def Settings.imported {parts : Parts} (uuids : ℕ → String) (s : Settings parts) : Settings parts :=
  let ids := s.servers.mapIdx fun i server => (server.id, freshId (uuids i))
  { s with
    experimental := { autoPhrase := s.experimental.autoPhrase }
    conversationLog := { s.conversationLog with directory := none }
    servers := s.servers.mapIdx fun i server => server.imported (uuids i)
    selectedServer := ((ids.find? (·.1 = s.selectedServer)).map Prod.snd).getD s.selectedServer }

/-- Reads and checks the bytes of a settings file; the fresh ids are made of the given UUIDs. -/
def importFromBytes (parts : Parts) (parse : List UInt8 → Except String Json) (uuids : ℕ → String)
    (bytes : List UInt8) : Except String (Import parts) :=
  match parse bytes with
  | .error error => .error ("Could not parse settings: " ++ error)
  | .ok value =>
    match value.asObj with
    | none => .error "The file is not a CayenChat settings file."
    | some _ =>
      let sourceVersion := (((value.get "version").bind asUnsigned).filter (· < 2 ^ 32)).getD 0
      match (value.get "servers").bind asArr with
      | none =>
        .error "The file has no server list, so it is not a CayenChat settings file."
      | some servers =>
        match checkServers 1 [] servers with
        | .error error => .error error
        | .ok () =>
          match parseSettings parts parse bytes "The current settings were left unchanged." with
          | .error error => .error error
          | .ok settings =>
            if maxImportServers < settings.servers.length then
              .error ("The file lists more than " ++ toString maxImportServers ++ " servers.")
            else
              match parts.validate settings.appearance with
              | .error error =>
                .error ("The file holds an invalid appearance setting: " ++ error)
              | .ok () =>
                .ok
                  { settings := settings.imported uuids
                    sourceVersion
                    droppedLocalPaths := settings.experimental.debugLogging ||
                      settings.experimental.stderrFile.isSome ||
                      settings.conversationLog.directory.isSome }

/-! ## The migrated file -/

variable {parts : Parts} {parse : List UInt8 → Except String Json} {uuids : ℕ → String}
  {bytes : List UInt8} {value : Json} {settings : Settings parts} {imported : Import parts}

def movedAvatars (value item : Json) : Json :=
  match ((value.get "appearance").bind asObj).bind (·.lookup "user_avatars") with
  | none => item
  | some old => orInsert "user_avatars" (.bool (old.asBool.getD false)) item

theorem get_migrateHover {key : String} (hk : key ≠ "appearance") (value : Json) :
    (migrateHoverPopupDefaults value).get key = value.get key := get_adjust_of_ne hk _ _

theorem get_migrated {key : String} (ha : key ≠ "appearance") (hs : key ≠ "servers")
    (value : Json) : (migrated value).get key = value.get key := by
  unfold migrated
  rw [get_migrateHover ha]
  unfold moveLegacyUserAvatars
  split
  · rfl
  · rw [get_adjust_of_ne hs, get_adjust_of_ne ha]

theorem servers_migrated {items : List Json} (h : value.get "servers" = some (.arr items)) :
    (migrated value).get "servers" = some (.arr (items.map (movedAvatars value))) := by
  unfold migrated
  rw [get_migrateHover (by decide)]
  unfold moveLegacyUserAvatars movedAvatars
  cases ((value.get "appearance").bind asObj).bind (·.lookup "user_avatars") with
  | none => simpa using h
  | some old =>
    dsimp only
    rw [get_adjust, get_adjust_of_ne (by decide), h]
    rfl

theorem get_movedAvatars {key : String} (hk : key ≠ "user_avatars") (value item : Json) :
    (movedAvatars value item).get key = item.get key := by
  unfold movedAvatars
  split
  · rfl
  · exact get_orInsert_of_ne hk _ _

/-! ## The check -/

/-- What the check lets pass: an id, a host that is not blank, and no port 0. -/
structure Usable (item : Json) : Prop where
  id : ∃ id, (item.get "id").bind asStr = some id ∧ id ≠ ""
  host : ∃ host, (item.get "host").bind asStr = some host ∧ trim host ≠ ""
  port : (item.get "port").bind asUnsigned ≠ some 0

theorem checkServers_ok {number : ℕ} {ids : List String} {items : List Json}
    (h : checkServers number ids items = .ok ()) :
    (∀ item ∈ items, Usable item) ∧
      (items.map fun item => ((item.get "id").bind asStr).getD "").Nodup ∧
      ∀ item ∈ items, ((item.get "id").bind asStr).getD "" ∉ ids := by
  induction items generalizing number ids with
  | nil => exact ⟨by rintro item ⟨⟩, List.nodup_nil, by rintro item ⟨⟩⟩
  | cons item items ih =>
    unfold checkServers at h
    dsimp only at h
    split at h
    · cases h
    rename_i hid
    split at h
    · cases h
    rename_i hnew
    split at h
    · cases h
    rename_i hhost
    split at h
    · cases h
    rename_i hport
    obtain ⟨husable, hnodup, hnot⟩ := ih h
    refine ⟨?_, ?_, ?_⟩
    · intro other hm
      rcases List.mem_cons.mp hm with rfl | hm
      · refine ⟨?_, ?_, hport⟩
        · cases hi : (other.get "id").bind asStr with
          | none => simp [hi] at hid
          | some id => exact ⟨id, rfl, by simpa [hi] using hid⟩
        · cases hh : (other.get "host").bind asStr with
          | none => simp [hh] at hhost
          | some host => exact ⟨host, rfl, by simpa [hh] using hhost⟩
      · exact husable other hm
    · rw [List.map_cons, List.nodup_cons]
      refine ⟨fun hm => ?_, hnodup⟩
      obtain ⟨other, hm, he⟩ := List.mem_map.mp hm
      exact hnot other hm (he ▸ List.mem_cons_self)
    · intro other hm
      rcases List.mem_cons.mp hm with rfl | hm
      · exact hnew
      · exact fun hin => hnot other hm (List.mem_cons_of_mem _ hin)

theorem slot_of_ofJson {item : Json} {slot : String → Option Json} {id : String}
    (hs : slots ServerProfile.fieldNames ServerProfile.aliases item = some slot)
    (hid : (item.get "id").bind asStr = some id) {name : String} (hn : name ≠ "char_refs") :
    slot name = item.get name := by
  cases item with
  | obj fields =>
    refine slots_obj hs ?_
    intro entry hm
    rw [List.mem_singleton.mp hm]
    exact Ne.symm hn
  | _ => cases hid

theorem yields_ofJson (item : Json) :
    Yields (fun profile => ∃ slot,
      slots ServerProfile.fieldNames ServerProfile.aliases item = some slot ∧
      required asStr (slot "id") = some profile.id ∧
      required asStr (slot "host") = some profile.host ∧
      required (unsigned 65535) (slot "port") = some profile.port)
      (ServerProfile.ofJson item) := by
  unfold ServerProfile.ofJson
  refine yields_bind fun slot hs => yields_bind fun id hi => yields_bind fun host hh =>
    yields_bind fun port hp => ?_
  -- The other fields do not matter here.
  iterate 28 refine yields_bind fun _ _ => ?_
  exact yields_some ⟨slot, hs, hi, hh, hp⟩

theorem ofJson_usable {item : Json} {profile : ServerProfile} (hu : Usable item)
    (h : ServerProfile.ofJson item = some profile) :
    (item.get "id").bind asStr = some profile.id ∧ profile.id ≠ "" ∧ trim profile.host ≠ "" ∧
      profile.port ≠ 0 := by
  obtain ⟨id, hid, hne⟩ := hu.id
  obtain ⟨host, hhost, hblank⟩ := hu.host
  obtain ⟨slot, hs, hi, hh, hp⟩ := yields_ofJson item profile h
  rw [slot_of_ofJson hs hid (by decide)] at hi hh hp
  unfold required at hi hh hp
  have hidEq : id = profile.id := Option.some.inj (hid.symm.trans hi)
  have hhostEq : host = profile.host := Option.some.inj (hhost.symm.trans hh)
  refine ⟨hi, hidEq ▸ hne, hhostEq ▸ hblank, fun hzero => hu.port ?_⟩
  obtain ⟨v, hv, hport⟩ := Option.bind_eq_some_iff.mp hp
  rw [hv, ← hzero]
  exact unsigned_eq_some hport

/-! ## What loading repairs -/

def ServerProfile.repaired (p : ServerProfile) : ServerProfile :=
  { p with
    verifyTlsCertificates := p.verifyTlsCertificates || !p.useTls
    saslEnabled := p.saslEnabled && p.useTls
    channelCharsets := p.cleanChannelCharsets.channelCharsets
    keyedChannels := p.cleanKeyedChannels.keyedChannels }

theorem repaired_eq (p : ServerProfile) :
    p.verifyWithoutTls.cleanChannelCharsets.cleanKeyedChannels.saslNeedsTls = p.repaired := by
  unfold ServerProfile.verifyWithoutTls ServerProfile.saslNeedsTls ServerProfile.repaired
  obtain ⟨id, host, port, tls⟩ := p
  cases tls <;> simp [ServerProfile.cleanChannelCharsets, ServerProfile.cleanKeyedChannels]

/-- A server list that loading does not shorten. -/
structure Whole (servers : List ServerProfile) : Prop where
  ids : ∀ p ∈ servers, p.id ≠ ""
  distinct : (servers.map ServerProfile.id).Nodup
  hosts : ∀ p ∈ servers, trim p.host ≠ ""
  ports : ∀ p ∈ servers, p.port ≠ 0

theorem Whole.retained {servers : List ServerProfile} (h : Whole servers) :
    Settings.retainServers servers = servers := by
  apply Distinct.retainFirst_eq_self
  · intro p hp
    simpa using h.ids p hp
  · intro p hp
    simpa using h.ports p hp
  · intro p _ hm
    cases hm
  · exact h.distinct

theorem Whole.hosted {servers : List ServerProfile} (h : Whole servers) :
    (servers.filter fun p => trim p.host ≠ "") = servers := by
  rw [List.filter_eq_self]
  intro p hp
  simpa using h.hosts p hp

theorem normalize_servers (hv : 12 < settings.version) (h : Whole settings.servers) :
    settings.normalize.servers = settings.servers.map ServerProfile.repaired := by
  have hold : decide (settings.version ≤ 12) = false := by simpa using hv
  unfold Settings.normalize
  simp only [hold, h.retained, h.hosted, Bool.false_eq_true, if_false, List.map_map]
  exact List.map_congr_left fun p _ => repaired_eq p

theorem normalize_selected (hv : 12 < settings.version) (h : Whole settings.servers)
    (hs : ∃ p ∈ settings.servers, p.id = settings.selectedServer) :
    settings.normalize.selectedServer = settings.selectedServer := by
  have hold : decide (settings.version ≤ 12) = false := by simpa using hv
  unfold Settings.normalize
  simp only [hold, h.retained, h.hosted, Bool.false_eq_true, if_false]
  rw [if_pos]
  obtain ⟨p, hp, hid⟩ := hs
  rw [List.any_eq_true]
  refine ⟨_, List.mem_map_of_mem hp, ?_⟩
  unfold ServerProfile.verifyWithoutTls
  split <;> exact decide_eq_true hid

/-! ## What is imported -/

variable {items : List Json} {listed : Settings parts}

theorem yields_settings (parts : Parts) (v : Json) :
    Yields (fun settings =>
      optional (unsigned (2 ^ 32 - 1)) settingsVersion (v.get "version") = some settings.version ∧
      optional (Json.list ServerProfile.ofJson) [] (v.get "servers") = some settings.servers)
      (Settings.ofJson parts v) := by
  unfold Settings.ofJson
  refine yields_bind fun _ _ => yields_bind fun version hv => yields_bind fun _ _ =>
    yields_bind fun servers hs => ?_
  iterate 6 refine yields_bind fun _ _ => ?_
  exact yields_some ⟨hv, hs⟩

/-- An import of a file is loaded from the list of the file, every entry of which passed the
check. -/
theorem importFromBytes_ok (h : importFromBytes parts parse uuids bytes = .ok imported) :
    ∃ value items listed, parse bytes = .ok value ∧ value.get "servers" = some (.arr items) ∧
      checkServers 1 [] items = .ok () ∧ Settings.ofJson parts (migrated value) = some listed ∧
      imported.settings = listed.normalize.imported uuids ∧
      (value.get "version").bind asUnsigned = some listed.version ∧
      imported.sourceVersion = listed.version := by
  unfold importFromBytes at h
  cases hparse : parse bytes with
  | error error =>
    rw [hparse] at h
    cases h
  | ok value =>
    rw [hparse] at h
    dsimp only at h
    split at h
    · cases h
    split at h
    · cases h
    rename_i items hitems
    split at h
    · cases h
    rename_i hcheck
    split at h
    · cases h
    rename_i settings hsettings
    split at h
    · cases h
    split at h
    · cases h
    cases h
    obtain ⟨w, hw, hitems⟩ := Option.bind_eq_some_iff.mp hitems
    unfold parseSettings at hsettings
    rw [hparse] at hsettings
    dsimp only at hsettings
    rw [get_migrated (by decide) (by decide)] at hsettings
    split at hsettings
    · cases hsettings
    split at hsettings
    · rename_i version hversion
      split at hsettings
      · cases hsettings
      split at hsettings
      · cases hsettings
      split at hsettings
      · rename_i listed hlisted
        cases hsettings
        have hread := (yields_settings parts _ listed hlisted).1
        obtain ⟨v, hv, hnumber⟩ := Option.bind_eq_some_iff.mp hversion
        rw [get_migrated (by decide) (by decide), hv] at hread
        obtain rfl : version = listed.version :=
          Option.some.inj (hnumber.symm.trans (unsigned_eq_some hread))
        refine ⟨value, items, listed, rfl, ?_, hcheck, hlisted, rfl, hversion, ?_⟩
        · rw [hw, asArr_eq_some.mp hitems]
        · have hsmall : listed.version < 2 ^ 32 :=
            (not_lt.mp ‹¬settingsVersion < listed.version›).trans_lt (by decide)
          dsimp only
          rw [hversion, Option.filter_some, if_pos (decide_eq_true hsmall)]
          rfl
      · cases hsettings
    · cases hsettings

def Listed (value item : Json) (profile : ServerProfile) : Prop :=
  ServerProfile.ofJson (movedAvatars value item) = some profile

theorem mapM_forall₂ {α β : Type*} {f : α → Option β} {as : List α} {bs : List β}
    (h : as.mapM f = some bs) : List.Forall₂ (fun a b => f a = some b) as bs := by
  induction as generalizing bs with
  | nil =>
    cases h
    exact .nil
  | cons a as ih =>
    rw [List.mapM_cons] at h
    obtain ⟨b, hb, h⟩ := Option.bind_eq_some_iff.mp h
    obtain ⟨bs', hbs, h⟩ := Option.bind_eq_some_iff.mp h
    cases h
    exact .cons hb (ih hbs)

theorem listed_servers (hs : value.get "servers" = some (.arr items))
    (hl : Settings.ofJson parts (migrated value) = some listed) :
    List.Forall₂ (Listed value) items listed.servers := by
  have hread := (yields_settings parts _ listed hl).2
  rw [servers_migrated hs] at hread
  have hread := mapM_forall₂ (show (items.map (movedAvatars value)).mapM ServerProfile.ofJson =
    some listed.servers from hread)
  rwa [List.forall₂_map_left_iff] at hread

theorem whole_of_check {servers : List ServerProfile} (hc : checkServers 1 [] items = .ok ())
    (hl : List.Forall₂ (Listed value) items servers) : Whole servers := by
  obtain ⟨husable, hnodup, -⟩ := checkServers_ok hc
  have hmoved : ∀ item, Usable item → Usable (movedAvatars value item) := by
    intro item hu
    refine ⟨?_, ?_, ?_⟩
    · rw [get_movedAvatars (by decide)]
      exact hu.id
    · rw [get_movedAvatars (by decide)]
      exact hu.host
    · rw [get_movedAvatars (by decide)]
      exact hu.port
  have hprofile : ∀ item, Usable item → ∀ p, Listed value item p →
      (item.get "id").bind asStr = some p.id ∧ p.id ≠ "" ∧ trim p.host ≠ "" ∧ p.port ≠ 0 := by
    intro item hu p hp
    have h := ofJson_usable (hmoved item hu) hp
    rwa [get_movedAvatars (by decide)] at h
  have hall : servers.map ServerProfile.id =
      (items.map fun item => ((item.get "id").bind asStr).getD "") ∧
      ∀ p ∈ servers, p.id ≠ "" ∧ trim p.host ≠ "" ∧ p.port ≠ 0 := by
    clear hnodup hc
    induction hl with
    | nil => exact ⟨rfl, by rintro p ⟨⟩⟩
    | @cons item p items servers hp hl ih =>
      obtain ⟨hids, hof⟩ := ih fun item hm => husable item (List.mem_cons_of_mem _ hm)
      obtain ⟨hid, hgood⟩ := hprofile item (husable item List.mem_cons_self) p hp
      constructor
      · rw [List.map_cons, List.map_cons, hids, hid]
        rfl
      · intro q hq
        rcases List.mem_cons.mp hq with rfl | hq
        · exact hgood
        · exact hof q hq
  obtain ⟨hids, hof⟩ := hall
  exact ⟨fun p hp => (hof p hp).1, hids ▸ hnodup, fun p hp => (hof p hp).2.1,
    fun p hp => (hof p hp).2.2⟩

/-- What an import restores of a list: its servers, in order, under fresh ids, without password
notes and with the repairs of a load, and its selection. -/
structure Restored (value : Json) (items : List Json) (listed : Settings parts)
    (imported : Import parts) : Prop where
  parsed : List.Forall₂ (Listed value) items listed.servers
  servers : List.Forall₂ (fun profile server => ∃ uuid, server = profile.repaired.imported uuid)
    listed.servers imported.settings.servers
  distinct : (imported.settings.servers.map ServerProfile.id).Nodup
  notes : ∀ server ∈ imported.settings.servers, server.rememberPasswords = false ∧
    server.serverPasswordSaved = false ∧ server.saslPasswordSaved = false ∧
      server.saslKeySaved = false
  selected : ∀ (i : ℕ) (profile : ServerProfile), listed.servers[i]? = some profile →
    profile.id = listed.selectedServer → ∃ server, imported.settings.servers[i]? = some server ∧
      imported.settings.selectedServer = server.id

theorem freshId_injective (huuids : Function.Injective uuids) :
    Function.Injective fun i => freshId (uuids i) := by
  intro i j h
  apply huuids
  have hlist := congrArg String.toList h
  exact String.toList_injective (by simpa [freshId] using hlist)

theorem imported_selected {profile : ServerProfile} {i : ℕ}
    (hn : (settings.servers.map ServerProfile.id).Nodup)
    (hi : settings.servers[i]? = some profile) (hs : profile.id = settings.selectedServer) :
    (settings.imported uuids).selectedServer = freshId (uuids i) := by
  obtain ⟨hlt, hget⟩ := List.getElem?_eq_some_iff.mp hi
  have hfind : (settings.servers.mapIdx fun i server => (server.id, freshId (uuids i))).find?
      (·.1 = settings.selectedServer) = some (profile.id, freshId (uuids i)) := by
    rw [List.find?_eq_some_iff_getElem]
    refine ⟨decide_eq_true hs, i, by simpa using hlt, by simp [hget], fun j hj => ?_⟩
    have hjlt : j < settings.servers.length := hj.trans hlt
    have hne : (settings.servers[j]).id ≠ settings.selectedServer := by
      intro he
      have hsame := List.inj_on_of_nodup_map hn (List.getElem_mem hjlt) (List.getElem_mem hlt)
        (by rw [hget, he, hs])
      exact hj.ne ((hn.of_map _).getElem_inj_iff.mp hsame)
    simpa using hne
  unfold Settings.imported
  dsimp only
  rw [hfind]
  rfl

theorem imported_ids (settings : Settings parts) :
    (settings.imported uuids).servers.map ServerProfile.id =
      (List.range settings.servers.length).map fun i => freshId (uuids i) := by
  unfold Settings.imported
  apply List.ext_getElem
  · simp
  · intro i _ _
    simp [ServerProfile.imported]

theorem restored (huuids : Function.Injective uuids) (hv : 12 < listed.version)
    (hl : List.Forall₂ (Listed value) items listed.servers) (hw : Whole listed.servers)
    (hi : imported.settings = listed.normalize.imported uuids) :
    Restored value items listed imported := by
  have hservers := normalize_servers hv hw
  have hlist : imported.settings.servers =
      (listed.servers.map ServerProfile.repaired).mapIdx fun i server =>
        server.imported (uuids i) := by
    rw [hi, ← hservers]
    rfl
  constructor
  · exact hl
  · rw [hlist, List.forall₂_iff_get]
    refine ⟨by simp, fun i _ _ => ⟨uuids i, ?_⟩⟩
    simp
  · rw [hi, imported_ids]
    exact List.nodup_range.map (freshId_injective huuids)
  · intro server hm
    rw [hlist] at hm
    obtain ⟨i, hlt, rfl⟩ := List.mem_mapIdx.mp hm
    exact ⟨rfl, rfl, rfl, rfl⟩
  · intro i profile hp hs
    have hselected := normalize_selected hv hw ⟨profile, List.mem_of_getElem? hp, hs⟩
    refine ⟨profile.repaired.imported (uuids i), ?_, ?_⟩
    · rw [hlist, List.getElem?_mapIdx, List.getElem?_map, hp]
      rfl
    · have hdistinct : (listed.normalize.servers.map ServerProfile.id).Nodup := by
        rw [hservers, List.map_map]
        exact hw.distinct
      have hget : listed.normalize.servers[i]? = some profile.repaired := by
        rw [hservers, List.getElem?_map, hp]
        rfl
      rw [hi]
      exact imported_selected hdistinct hget (hs.trans hselected.symm)

/-- Settings that are read whatever their appearance and preferences are. -/
def plainParts : Parts where
  Appearance := Unit
  Preferences := Unit
  appearance _ := some ()
  cleanAppearance := id
  validate _ := .ok ()
  preferences _ := some ()
  complaint _ := ""

/-- A file with two servers, the second one selected. -/
def twoServers : Json :=
  .obj [("version", .num (.posInt 15)), ("selected_server", .str "b"),
    ("servers", .arr [
      .obj [("id", .str "a"), ("host", .str "irc.example.org"), ("port", .num (.posInt 6667)),
        ("use_tls", .bool false), ("encoding", .str "utf8"), ("remember_passwords", .bool true)],
      .obj [("id", .str "b"), ("host", .str "irc.example.net"), ("port", .num (.posInt 6697)),
        ("use_tls", .bool true), ("encoding", .str "utf8")]])]

def letters (n : ℕ) : String := String.ofList (List.replicate n 'a')

theorem letters_injective : Function.Injective letters := by
  intro m n h
  have hlength := congrArg (fun s => s.toList.length) h
  simpa [letters] using hlength

end CayenChat.Storage
