import CayenChat.Storage.Import

/-! # Repaired settings

What a load repairs is sound and stays as it is: the servers have distinct identifiers, hosts and
ports, and the selected one is among them.
-/

namespace CayenChat.Storage

variable {parts : Parts} {servers servers' : List ServerProfile}

theorem map_modify_same {α β : Type*} {f : α → α} {g : α → β} (h : ∀ a, g (f a) = g a)
    (l : List α) (i : ℕ) : (l.modify i f).map g = l.map g := by
  induction l generalizing i with
  | nil => simp
  | cons a l ih =>
    cases i with
    | zero => simp [h]
    | succ i => simp [ih]

theorem forall_mem_modify {α : Type*} {f : α → α} {p : α → Prop} {l : List α}
    (hl : ∀ a ∈ l, p a) (hf : ∀ a, p a → p (f a)) (i : ℕ) : ∀ a ∈ l.modify i f, p a := by
  induction l generalizing i with
  | nil => simp
  | cons a l ih =>
    obtain ⟨ha, hl⟩ := List.forall_mem_cons.mp hl
    cases i with
    | zero => simpa using ⟨hf a ha, hl⟩
    | succ i => simpa using ⟨ha, ih hl i⟩

/-! ## The servers that are listed -/

/-- Distinct servers that can be named and connected to. -/
structure Addressed (servers : List ServerProfile) : Prop where
  ids : ∀ p ∈ servers, p.id ≠ ""
  ports : ∀ p ∈ servers, p.port ≠ 0
  distinct : (servers.map ServerProfile.id).Nodup

theorem retainServers_listed : Addressed (Settings.retainServers servers) where
  ids p hp := by simpa using (Distinct.mem_retainFirst hp).2.1
  ports p hp := by simpa using (Distinct.mem_retainFirst hp).2.2.1
  distinct := Distinct.nodup_retainFirst

theorem Addressed.sublist (h : Addressed servers) (hs : servers'.Sublist servers) : Addressed servers' where
  ids p hp := h.ids p (hs.subset hp)
  ports p hp := h.ports p (hs.subset hp)
  distinct := h.distinct.sublist (hs.map _)

theorem restorePreset_listed (h : Addressed servers) {preset : String × String}
    (hid : preset.1 ≠ "") (selected : String) :
    Addressed (Settings.restorePreset selected servers preset) := by
  unfold Settings.restorePreset
  split_ifs with hany hselected
  · refine ⟨forall_mem_modify h.ids ?_ _, forall_mem_modify h.ports ?_ _, ?_⟩
    · exact fun _ hp => hp
    · exact fun _ hp => hp
    · refine Eq.mpr (congrArg List.Nodup (map_modify_same ?_ _ _)) h.distinct
      exact fun _ => rfl
  · have hnew : preset.1 ∉ servers.map ServerProfile.id := by
      simpa using hany
    refine ⟨?_, ?_, ?_⟩
    · exact List.forall_mem_append.mpr ⟨h.ids, List.forall_mem_singleton.mpr hid⟩
    · exact List.forall_mem_append.mpr ⟨h.ports, List.forall_mem_singleton.mpr
        (Nat.succ_ne_zero 6666)⟩
    · rw [List.map_append]
      exact List.concat_eq_append ▸ h.distinct.concat hnew
  · exact h

theorem migratePresets_listed (h : Addressed servers) (selected : String) :
    Addressed (Settings.migratePresets selected servers) := by
  have hrestored : Addressed
      (legacyIrcnetHosts.foldl (Settings.restorePreset selected) servers) :=
    restorePreset_listed (restorePreset_listed h (by decide) selected) (by decide) selected
  have hkept := hrestored.sublist (List.filter_sublist (p := fun s =>
    !Settings.isPreset s || s.id = selected || s.serverPasswordSaved || s.saslPasswordSaved ||
      s.saslKeySaved))
  unfold Settings.migratePresets
  dsimp only
  generalize List.filter _ (legacyIrcnetHosts.foldl _ servers) = kept at hkept ⊢
  have hperm : (kept.filter (!Settings.isPreset ·) ++ kept.filter Settings.isPreset).Perm kept := by
    simpa using List.filter_append_perm (!Settings.isPreset ·) kept
  exact ⟨fun p hp => hkept.ids p (hperm.subset hp), fun p hp => hkept.ports p (hperm.subset hp),
    (hperm.map _).nodup_iff.mpr hkept.distinct⟩

/-! ## What a load leaves -/

/-- Nothing of a server is left to repair, except for SASL without TLS. -/
structure Clean (p : ServerProfile) : Prop where
  id : p.id ≠ ""
  port : p.port ≠ 0
  host : trim p.host ≠ ""
  verified : p.useTls = true ∨ p.verifyTlsCertificates = true
  charsets : p.cleanChannelCharsets = p
  keyed : p.cleanKeyedChannels = p

theorem charsets_twice (p : ServerProfile) :
    p.cleanChannelCharsets.cleanChannelCharsets = p.cleanChannelCharsets := by
  simp [ServerProfile.cleanChannelCharsets, Distinct.retainFirst_take]

theorem keyed_twice (p : ServerProfile) :
    p.cleanKeyedChannels.cleanKeyedChannels = p.cleanKeyedChannels := by
  simp [ServerProfile.cleanKeyedChannels, Function.comp_def, Distinct.retainFirst_take,
    List.take_take]

theorem cleaned_id (p : ServerProfile) :
    p.verifyWithoutTls.cleanChannelCharsets.cleanKeyedChannels.id = p.id := by
  unfold ServerProfile.verifyWithoutTls
  split_ifs <;> rfl

theorem clean_repaired {p : ServerProfile} (hid : p.id ≠ "") (hport : p.port ≠ 0)
    (hhost : trim p.host ≠ "") :
    Clean p.verifyWithoutTls.cleanChannelCharsets.cleanKeyedChannels := by
  unfold ServerProfile.verifyWithoutTls
  split_ifs with htls
  · exact ⟨hid, hport, hhost, .inl htls,
      congrArg ServerProfile.cleanKeyedChannels (charsets_twice p), keyed_twice _⟩
  · exact ⟨hid, hport, hhost, .inr rfl,
      congrArg ServerProfile.cleanKeyedChannels (charsets_twice _), keyed_twice _⟩

theorem Clean.repaired {p : ServerProfile} (h : Clean p) :
    p.saslNeedsTls.repaired = p.saslNeedsTls := by
  have hcharsets := congrArg ServerProfile.channelCharsets h.charsets
  have hkeyed := congrArg ServerProfile.keyedChannels h.keyed
  unfold ServerProfile.cleanChannelCharsets at hcharsets
  unfold ServerProfile.cleanKeyedChannels at hkeyed
  dsimp only at hcharsets hkeyed
  have hverified := h.verified
  unfold ServerProfile.saslNeedsTls ServerProfile.repaired ServerProfile.cleanChannelCharsets
    ServerProfile.cleanKeyedChannels
  cases p
  split_ifs <;> simp_all

/-- The servers as they are listed last, before SASL is looked at. -/
theorem normalize_given (s : Settings parts) : ∃ given : List ServerProfile,
    s.normalize.servers = given.map ServerProfile.saslNeedsTls ∧ (∀ p ∈ given, Clean p) ∧
      (given.map ServerProfile.id).Nodup ∧
      (s.normalize.selectedServer ∈ given.map ServerProfile.id ∨
        given = [] ∧ s.normalize.selectedServer = "") := by
  have hbase : ∀ migrate : Bool, Addressed (if migrate then
      Settings.migratePresets s.selectedServer (Settings.retainServers s.servers)
      else Settings.retainServers s.servers) := by
    rintro (_ | _)
    · exact retainServers_listed
    · exact migratePresets_listed retainServers_listed _
  unfold Settings.normalize
  dsimp only
  generalize decide (s.version ≤ 12) = migrate at hbase ⊢
  specialize hbase migrate
  generalize (if migrate then _ else _ : List ServerProfile) = base at hbase ⊢
  have hclean : ∀ p ∈ (base.filter fun server => trim server.host ≠ "").map fun server =>
      server.verifyWithoutTls.cleanChannelCharsets.cleanKeyedChannels, Clean p := by
    intro p hp
    obtain ⟨q, hq, rfl⟩ := List.mem_map.mp hp
    obtain ⟨hq, hhost⟩ := List.mem_filter.mp hq
    exact clean_repaired (hbase.ids q hq) (hbase.ports q hq) (of_decide_eq_true hhost)
  have hids : (((base.filter fun server => trim server.host ≠ "").map fun server =>
      server.verifyWithoutTls.cleanChannelCharsets.cleanKeyedChannels).map
        ServerProfile.id).Nodup := by
    rw [List.map_map]
    convert (hbase.sublist List.filter_sublist).distinct using 2
    exact funext cleaned_id
  generalize List.map _ (List.filter _ base) = list at hclean hids ⊢
  have hselected : (if (list.any fun server => decide (server.id = s.selectedServer)) = true
      then s.selectedServer else (list.head?.map ServerProfile.id).getD "") ∈
        list.map ServerProfile.id ∨ list = [] ∧ (if (list.any fun server =>
          decide (server.id = s.selectedServer)) = true then s.selectedServer
            else (list.head?.map ServerProfile.id).getD "") = "" := by
    cases list with
    | nil => exact .inr ⟨rfl, rfl⟩
    | cons first list =>
      split_ifs with hany
      · obtain ⟨p, hp, hid⟩ := List.any_eq_true.mp hany
        exact .inl (List.mem_map.mpr ⟨p, hp, of_decide_eq_true hid⟩)
      · exact .inl List.mem_cons_self
  cases migrate with
  | false => exact ⟨list, rfl, hclean, hids, hselected⟩
  | true =>
    have hsame := map_modify_same (f := Settings.takeIdentity s.legacy) (g := ServerProfile.id)
      (fun _ => rfl) list
    refine ⟨_, rfl, forall_mem_modify hclean (fun p hp => ?_) _, ?_, hselected.imp ?_ ?_⟩
    · exact ⟨hp.id, hp.port, hp.host, hp.verified,
        congrArg (Settings.takeIdentity s.legacy) hp.charsets,
        congrArg (Settings.takeIdentity s.legacy) hp.keyed⟩
    · rw [if_pos rfl, hsame]
      exact hids
    · intro h
      rw [if_pos rfl, hsame]
      exact h
    · rintro ⟨rfl, h⟩
      exact ⟨rfl, h⟩

theorem normalize_sound (s : Settings parts) :
    Whole s.normalize.servers ∧
      (∀ p ∈ s.normalize.servers, p.saslEnabled = true → p.useTls = true) ∧
      ((∃ p ∈ s.normalize.servers, p.id = s.normalize.selectedServer) ∨
        s.normalize.servers = [] ∧ s.normalize.selectedServer = "") ∧
      s.normalize.normalize =
        { s.normalize with appearance := parts.cleanAppearance s.normalize.appearance } := by
  obtain ⟨given, hservers, hclean, hids, hselected⟩ := normalize_given s
  have hsasl : ∀ p : ServerProfile, p.saslNeedsTls.id = p.id ∧ p.saslNeedsTls.host = p.host ∧
      p.saslNeedsTls.port = p.port ∧
        (p.saslNeedsTls.saslEnabled = true → p.saslNeedsTls.useTls = true) := by
    intro p
    unfold ServerProfile.saslNeedsTls
    split_ifs with htls <;> simp [htls]
  have hnames : s.normalize.servers.map ServerProfile.id = given.map ServerProfile.id := by
    rw [hservers, List.map_map]
    exact List.map_congr_left fun p _ => (hsasl p).1
  have hwhole : Whole s.normalize.servers := by
    refine ⟨?_, hnames ▸ hids, ?_, ?_⟩ <;> rw [hservers] <;> intro q hq <;>
      obtain ⟨p, hp, rfl⟩ := List.mem_map.mp hq
    · exact (hsasl p).1 ▸ (hclean p hp).id
    · exact (hsasl p).2.1 ▸ (hclean p hp).host
    · exact (hsasl p).2.2.1 ▸ (hclean p hp).port
  have hv : 12 < s.normalize.version := by
    have : 12 < settingsVersion := by decide
    exact this
  refine ⟨hwhole, ?_, ?_, ?_⟩
  · rw [hservers]
    intro q hq
    obtain ⟨p, -, rfl⟩ := List.mem_map.mp hq
    exact (hsasl p).2.2.2
  · rw [← hnames, List.mem_map] at hselected
    exact hselected.imp_right fun h => ⟨by rw [hservers, h.1]; rfl, h.2⟩
  · have hagain : s.normalize.normalize.servers = s.normalize.servers := by
      rw [normalize_servers hv hwhole, hservers, List.map_map]
      exact List.map_congr_left fun p hp => (hclean p hp).repaired
    have hstill : s.normalize.normalize.selectedServer = s.normalize.selectedServer := by
      rcases hselected with h | ⟨rfl, h⟩
      · rw [← hnames] at h
        exact normalize_selected hv hwhole (List.mem_map.mp h)
      · obtain ⟨given, hlist, -, -, hnext⟩ := normalize_given s.normalize
        rw [hagain, hservers] at hlist
        obtain rfl := List.map_eq_nil_iff.mp hlist.symm
        rw [h, (hnext.resolve_left List.not_mem_nil).2]
    have hnotes : s.normalize.imageUpload.cleanNotes = s.normalize.imageUpload := by
      simp [Settings.normalize, ImageUpload.cleanNotes, Distinct.retainFirst_take, List.take_take]
    calc s.normalize.normalize = { s.normalize with
          selectedServer := s.normalize.normalize.selectedServer
          servers := s.normalize.normalize.servers
          appearance := parts.cleanAppearance s.normalize.appearance
          imageUpload := s.normalize.imageUpload.cleanNotes } := rfl
      _ = _ := by rw [hagain, hstill, hnotes]

end CayenChat.Storage
