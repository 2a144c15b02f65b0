import CayenChat.Sending.OneLine

/-! # Members in `MODE` lines

The members of a change are spread over as few lines as the limits allow: the
server's limit of modes, and the bytes that a line's parameters may use.
-/

namespace CayenChat.Sending

def withoutRepeats (nicknames : List String) : List String :=
  (nicknames.zipIdx.filter fun (nick, i) =>
    !(nicknames.take i).any fun earlier => nicknameKey earlier = nicknameKey nick).map (·.1)

def parameterBytes (group : List String) : ℕ := (group.map fun nick => byteLen nick + 1).sum

/-- Whether the nicknames of a line keep to the limits. -/
structure Fits (perLine : ℕ) (group : List String) : Prop where
  nonempty : group ≠ []
  length : group.length ≤ perLine
  bytes : group.length = 1 ∨ parameterBytes group ≤ maxParameterBytes

def Full (perLine : ℕ) (group : List String) (nick : String) : Prop :=
  group.length = perLine ∨ maxParameterBytes < parameterBytes (group ++ [nick])

variable {perLine : ℕ} {group nicks : List String} {nick : String}

theorem withoutRepeats_concat (nicks : List String) (nick : String) :
    withoutRepeats (nicks ++ [nick]) = withoutRepeats nicks ++
      if nicks.any fun earlier => nicknameKey earlier = nicknameKey nick then [] else [nick] := by
  unfold withoutRepeats
  rw [List.zipIdx_append, List.filter_append, List.map_append]
  congr 1
  · congr 1
    apply List.filter_congr
    rintro ⟨other, i⟩ hmem
    have hi := (List.mem_zipIdx hmem).2.1
    simp at hi
    dsimp only
    rw [List.take_append_of_le_length hi.le]
  · simp
    split <;> simp_all

theorem any_withoutRepeats (nicks : List String) (key : String) :
    ((withoutRepeats nicks).any fun nick => nicknameKey nick = key) =
      nicks.any fun nick => nicknameKey nick = key := by
  induction nicks using List.reverseRecOn with
  | nil => rfl
  | append_singleton nicks nick ih =>
    rw [withoutRepeats_concat, List.any_append, List.any_append, ih]
    split
    · rename_i h
      by_cases hkey : nicknameKey nick = key
      · rw [hkey] at h
        simp [h]
      · simp [hkey]
    · rfl

theorem uniqueNicks_concat (nicks : List String) (nick : String) :
    uniqueNicks (nicks ++ [nick]) =
      if (uniqueNicks nicks).any fun seen => sameNickname seen nick then uniqueNicks nicks
      else uniqueNicks nicks ++ [nick] := by
  rw [uniqueNicks, List.foldl_append]
  rfl

theorem uniqueNicks_eq (nicks : List String) : uniqueNicks nicks = withoutRepeats nicks := by
  induction nicks using List.reverseRecOn with
  | nil => rfl
  | append_singleton nicks nick ih =>
    have hsame : ((withoutRepeats nicks).any fun seen => sameNickname seen nick) =
        nicks.any fun earlier => nicknameKey earlier = nicknameKey nick := by
      rw [← any_withoutRepeats]
      congr 1
      funext seen
      rw [Bool.eq_iff_iff, sameNickname_iff, decide_eq_true_iff]
    rw [uniqueNicks_concat, withoutRepeats_concat, ih, hsame]
    split <;> simp

theorem parameterBytes_append (group more : List String) :
    parameterBytes (group ++ more) = parameterBytes group + parameterBytes more := by
  simp [parameterBytes]

@[simp] theorem parameterBytes_singleton (nick : String) :
    parameterBytes [nick] = byteLen nick + 1 := by
  simp [parameterBytes]

theorem nickGroups_head (hg : group ≠ []) (nicks : List String) (bytes : ℕ) :
    ∃ line lines, nickGroups perLine nicks group bytes = line :: lines ∧
      line.head? = group.head? := by
  induction nicks generalizing group bytes with
  | nil => exact ⟨group, [], by rw [nickGroups, if_neg hg], rfl⟩
  | cons nick nicks ih =>
    rw [nickGroups, if_neg hg]
    split
    · exact ⟨group, _, rfl, rfl⟩
    · obtain ⟨line, lines, heq, hhead⟩ := ih (by simp : group ++ [nick] ≠ []) _
      refine ⟨line, lines, heq, hhead.trans ?_⟩
      rw [List.head?_append_of_ne_nil _ hg]

theorem nickGroups_fits (hp : 0 < perLine) (hg : group = [] ∨ Fits perLine group)
    (nicks : List String) :
    ∀ line ∈ nickGroups perLine nicks group (parameterBytes group), Fits perLine line := by
  induction nicks generalizing group with
  | nil =>
    rw [nickGroups]
    split
    · simp
    · rename_i hne
      simpa using hg.resolve_left hne
  | cons nick nicks ih =>
    have hone : Fits perLine [nick] := ⟨by simp, hp, .inl rfl⟩
    rw [nickGroups]
    split
    · rintro line hline
      rcases List.mem_append.mp hline with h | h
      · split at h
        · cases h
        · rename_i hne
          rw [List.mem_singleton.mp h]
          exact hg.resolve_left hne
      · rw [← parameterBytes_singleton] at h
        exact ih (.inr hone) line h
    · rename_i hroom
      push Not at hroom
      have hbytes : parameterBytes group + byteLen nick + 1 = parameterBytes (group ++ [nick]) := by
        rw [parameterBytes_append, parameterBytes_singleton, Nat.add_assoc]
      rw [hbytes]
      refine ih (.inr ⟨by simp, ?_, .inr ?_⟩)
      · rcases hg with rfl | hg
        · exact hp
        · rw [List.length_append]
          exact Nat.lt_of_le_of_ne hg.length hroom.1
      · rw [← hbytes]
        exact hroom.2

theorem nickGroups_full (nicks group : List String) :
    (nickGroups perLine nicks group (parameterBytes group)).IsChain fun line next =>
      ∀ nick ∈ next.head?, Full perLine line nick := by
  induction nicks generalizing group with
  | nil =>
    rw [nickGroups]
    split <;> simp
  | cons nick nicks ih =>
    rw [nickGroups]
    split
    · rename_i hfull
      have hrest := ih [nick]
      rw [parameterBytes_singleton] at hrest
      split
      · exact hrest
      · obtain ⟨line, lines, heq, hhead⟩ :=
          nickGroups_head (by simp : [nick] ≠ []) nicks (byteLen nick + 1)
        rw [heq] at hrest ⊢
        refine List.IsChain.cons_cons (fun first hfirst => ?_) hrest
        rw [hhead] at hfirst
        cases hfirst
        unfold Full
        rw [parameterBytes_append, parameterBytes_singleton]
        exact hfull
    · have hbytes : parameterBytes group + byteLen nick + 1 = parameterBytes (group ++ [nick]) := by
        rw [parameterBytes_append, parameterBytes_singleton, Nat.add_assoc]
      rw [hbytes]
      exact ih _

/-- The lines of a change hold every member once, in order; each keeps to the limits and has a
letter for each of its members, and the first member of a line had no room in the line before. -/
theorem modeLines_grouped (channel : String) (mode : MemberMode) (nicks : List String)
    (perLine : ℕ) : ∃ groups : List (List String),
    modeLines channel mode nicks perLine = groups.map (fun group =>
      channel :: String.ofList (mode.sign :: List.replicate group.length mode.flag) :: group) ∧
    groups.flatten = withoutRepeats nicks ∧
    (∀ group ∈ groups, Fits (max perLine 1) group) ∧
    groups.IsChain fun group next => ∀ nick ∈ next.head?, Full (max perLine 1) group nick := by
  refine ⟨_, rfl, ?_, ?_, ?_⟩
  · rw [nickGroups_flatten, uniqueNicks_eq, List.nil_append]
  · exact nickGroups_fits (by omega) (.inl rfl) _
  · exact nickGroups_full _ []

end CayenChat.Sending
