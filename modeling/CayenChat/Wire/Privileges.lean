import CayenChat.Wire.Parse

/-! # Operator and voice changes

The changes of a `MODE` line for the conversation log. The parser has paired
the arguments with the letters by its own table; they are paired again here. A
reference pairs the letters of the line with all of its arguments.
-/

namespace CayenChat

/-- A member is given or loses a privilege. -/
structure PrivilegeChange where
  granted : Bool
  mode : Char
  target : String
  deriving DecidableEq, Repr

namespace Privileges

/-- The letters that were set or cleared, and the arguments that the parser consumed. -/
def flagsOf : List Mode → Option (List (Bool × ChannelMode) × List String)
  | [] => some ([], [])
  | .plus mode arg :: modes =>
    (flagsOf modes).map fun (flags, args) => ((true, mode) :: flags, arg.toList ++ args)
  | .minus mode arg :: modes =>
    (flagsOf modes).map fun (flags, args) => ((false, mode) :: flags, arg.toList ++ args)
  | .noPrefix _ :: _ => none

def takesArgument (granted : Bool) : ChannelMode → Option Bool
  | .oper | .voice | .ban | .exception | .inviteException | .key => some true
  | .limit => some granted
  | .inviteOnly | .moderated | .registeredOnly | .secret | .protectedTopic
  | .noExternalMessages => some false
  | _ => none

def change (granted : Bool) (mode : ChannelMode) (target : String) : List PrivilegeChange :=
  if (mode = .oper ∨ mode = .voice) ∧ target ≠ "" then
    [⟨granted, if mode = .oper then 'o' else 'v', target⟩]
  else []

/-- Pairs the letters with the arguments again; also the arguments left over. -/
def pair : List (Bool × ChannelMode) → List String → Option (List PrivilegeChange × List String)
  | [], args => some ([], args)
  | (granted, mode) :: flags, args => do
    if ← takesArgument granted mode then
      match args with
      | [] => none
      | target :: args =>
        (pair flags args).map fun (changes, rest) => (change granted mode target ++ changes, rest)
    else pair flags args

/-- The operator and voice changes of a `MODE`. -/
def privilegeChanges (modes : List Mode) : List PrivilegeChange :=
  match flagsOf modes with
  | none => []
  | some (flags, args) =>
    match pair flags args with
    | some (changes, []) => changes
    | _ => []

/-! ## The reference -/

/-- How many arguments a letter takes, which nothing announces otherwise. -/
def needs (granted : Bool) (letter : Char) : Option Bool :=
  if letter ∈ ['o', 'v', 'b', 'e', 'I', 'k'] then some true
  else if letter = 'l' then some granted
  else if letter ∈ ['i', 'm', 'r', 's', 't', 'n'] then some false
  else none

def grant (granted : Bool) (letter : Char) (target : String) : List PrivilegeChange :=
  if (letter = 'o' ∨ letter = 'v') ∧ target ≠ "" then [⟨granted, letter, target⟩] else []

/-- Walks the letters from left to right and gives each its argument. What is left over is
returned; there is nothing when a letter is unknown, has no sign, or lacks its argument. -/
def walk : Option Bool → List Char → List String → Option (List PrivilegeChange × List String)
  | _, [], args => some ([], args)
  | sign, c :: cs, args =>
    if c = '+' then walk (some true) cs args
    else if c = '-' then walk (some false) cs args
    else do
      let granted ← sign
      if ← needs granted c then
        match args with
        | [] => none
        | target :: args =>
          (walk sign cs args).map fun (changes, rest) => (grant granted c target ++ changes, rest)
      else walk sign cs args

/-- What the letters and arguments of a `MODE` line mean. -/
def reference : List String → Option (List PrivilegeChange × List String)
  | [] => some ([], [])
  | letters :: args => walk none letters.toList args

def clearsLimit : Option Bool → List Char → Bool
  | _, [] => false
  | sign, c :: cs =>
    if c = '+' then clearsLimit (some true) cs
    else if c = '-' then clearsLimit (some false) cs
    else (c == 'l' && sign == some false) || clearsLimit sign cs

def lineClearsLimit : List String → Bool
  | [] => false
  | letters :: _ => clearsLimit none letters.toList

/-! ## The letters that were paired -/

def flagsFrom : Option Bool → List Char → Option (List (Bool × ChannelMode))
  | _, [] => some []
  | sign, c :: cs =>
    if c = '+' then flagsFrom (some true) cs
    else if c = '-' then flagsFrom (some false) cs
    else sign.bind fun granted => (flagsFrom sign cs).map ((granted, .ofChar c) :: ·)

def taken (cs : List Char) : ℕ := (cs.filter fun c => (ChannelMode.ofChar c).takesArg).length

def signOf : PlusMinus → Option Bool
  | .plus => some true
  | .minus => some false
  | .noPrefix => none

variable {sign : PlusMinus} {granted : Bool} {c : Char} {cs : List Char}
  {args rest used : List String} {flags : List (Bool × ChannelMode)}
  {changes : List PrivilegeChange} {pieces : List String}

theorem flagsOf_cons (sign : PlusMinus) (mode : ChannelMode) (arg : Option String)
    (modes : List Mode) : flagsOf (sign.mode mode arg :: modes) =
      (signOf sign).bind fun granted => (flagsOf modes).map fun (flags, args) =>
        ((granted, mode) :: flags, arg.toList ++ args) := by
  cases sign <;> rfl

theorem flagsOf_modesOf (sign : PlusMinus) (cs : List Char) (args : List String) :
    flagsOf (modesOf ChannelMode.ofChar ChannelMode.takesArg sign cs args) =
      (flagsFrom (signOf sign) cs).map fun flags => (flags, args.take (taken cs)) := by
  induction cs generalizing sign args with
  | nil => simp [modesOf, flagsOf, flagsFrom, taken]
  | cons c cs ih =>
    unfold modesOf flagsFrom
    split
    · rename_i h
      rw [ih, h]
      rfl
    split
    · rename_i h
      rw [ih, h]
      rfl
    split
    · rename_i h
      have ht : taken (c :: cs) = taken cs + 1 := by simp [taken, h]
      rw [flagsOf_cons, ih, ht]
      cases signOf sign with
      | none => rfl
      | some granted =>
        cases flagsFrom (some granted) cs <;> cases args <;> simp
    · rename_i h
      have ht : taken (c :: cs) = taken cs := by simp [taken, h]
      rw [flagsOf_cons, ih, ht]
      cases signOf sign with
      | none => rfl
      | some granted => cases flagsFrom (some granted) cs <;> simp

theorem takesArgument_ofChar (granted : Bool) (c : Char) :
    takesArgument granted (.ofChar c) = needs granted c := by
  unfold ChannelMode.ofChar
  split
  case h_17 =>
    simp_all [takesArgument, needs]
  all_goals rfl

theorem change_ofChar (granted : Bool) (c : Char) (target : String) :
    change granted (.ofChar c) target = grant granted c target := by
  have hoper : ChannelMode.ofChar c = .oper ↔ c = 'o' := by
    unfold ChannelMode.ofChar
    split <;> simp_all
  have hvoice : ChannelMode.ofChar c = .voice ↔ c = 'v' := by
    unfold ChannelMode.ofChar
    split <;> simp_all
  unfold change grant
  simp only [hoper, hvoice]
  split
  · rename_i h
    rcases h.1 with rfl | rfl <;> rfl
  · rfl

theorem walk_eq (sign : Option Bool) (cs : List Char) (args : List String) :
    walk sign cs args = (flagsFrom sign cs).bind fun flags => pair flags args := by
  induction cs generalizing sign args with
  | nil => rfl
  | cons c cs ih =>
    unfold walk flagsFrom
    split
    · exact ih ..
    split
    · exact ih ..
    cases sign with
    | none => rfl
    | some granted =>
      have htakes := takesArgument_ofChar granted c
      cases hn : needs granted c with
      | none => cases flagsFrom (some granted) cs <;> simp [pair, htakes, hn]
      | some takes =>
        cases takes with
        | false =>
          simp only [Option.bind_eq_bind, Option.bind_some, ih]
          cases flagsFrom (some granted) cs <;> simp [pair, htakes, hn]
        | true =>
          cases args with
          | nil => cases flagsFrom (some granted) cs <;> simp [pair, htakes, hn]
          | cons target args =>
            simp only [Option.bind_eq_bind, Option.bind_some, ih]
            cases flagsFrom (some granted) cs <;> simp [pair, htakes, hn, change_ofChar]

/-! ## Arguments that the parser drops -/

theorem pair_eq_some (h : pair flags args = some (changes, rest)) :
    ∃ used, args = used ++ rest ∧
      used.length = (flags.filter fun f => takesArgument f.1 f.2 = some true).length ∧
      ∀ more, pair flags (used ++ more) = some (changes, more) := by
  induction flags generalizing args changes with
  | nil =>
    cases h
    exact ⟨[], rfl, rfl, fun _ => rfl⟩
  | cons f flags ih =>
    obtain ⟨granted, mode⟩ := f
    unfold pair at h
    obtain ⟨takes, htakes, h⟩ := Option.bind_eq_some_iff.mp h
    cases takes with
    | false =>
      obtain ⟨used, rfl, hlength, hmore⟩ := ih h
      refine ⟨used, rfl, by simpa [htakes] using hlength, fun more => ?_⟩
      simp [pair, htakes, hmore]
    | true =>
      cases args with
      | nil => cases h
      | cons target args =>
        obtain ⟨⟨changes', rest'⟩, hpair, heq⟩ := Option.map_eq_some_iff.mp h
        cases heq
        obtain ⟨used, rfl, hlength, hmore⟩ := ih hpair
        refine ⟨target :: used, rfl, by simpa [htakes] using hlength, fun more => ?_⟩
        simp [pair, htakes, hmore]

theorem takesArg_eq {mode : ChannelMode} (h : takesArgument granted mode ≠ none) :
    mode.takesArg = (decide (takesArgument granted mode = some true) ||
      decide ((granted, mode) = (false, .limit))) := by
  cases mode <;> cases granted <;> first | rfl | exact absurd rfl h

theorem ofChar_eq_limit : ChannelMode.ofChar c = .limit ↔ c = 'l' := by
  unfold ChannelMode.ofChar
  split <;> simp_all

theorem clearsLimit_iff {sign : Option Bool} (h : flagsFrom sign cs = some flags) :
    clearsLimit sign cs = true ↔ (false, .limit) ∈ flags := by
  induction cs generalizing sign flags with
  | nil =>
    cases h
    simp [clearsLimit]
  | cons c cs ih =>
    by_cases hplus : c = '+'
    · rw [flagsFrom, if_pos hplus] at h
      rw [clearsLimit, if_pos hplus]
      exact ih h
    by_cases hminus : c = '-'
    · rw [flagsFrom, if_neg hplus, if_pos hminus] at h
      rw [clearsLimit, if_neg hplus, if_pos hminus]
      exact ih h
    rw [flagsFrom, if_neg hplus, if_neg hminus] at h
    rw [clearsLimit, if_neg hplus, if_neg hminus]
    obtain ⟨granted, rfl, h⟩ := Option.bind_eq_some_iff.mp h
    obtain ⟨flags', hflags, rfl⟩ := Option.map_eq_some_iff.mp h
    have hlimit : ChannelMode.limit = .ofChar c ↔ c = 'l' := by rw [eq_comm, ofChar_eq_limit]
    simp only [Bool.or_eq_true, ih hflags, List.mem_cons, Prod.mk.injEq, hlimit]
    cases granted <;> simp

theorem taken_eq {sign : Option Bool} (h : flagsFrom sign cs = some flags)
    (hknown : ∀ f ∈ flags, takesArgument f.1 f.2 ≠ none) :
    taken cs = (flags.filter fun f => takesArgument f.1 f.2 = some true).length +
      (flags.filter (· = (false, .limit))).length := by
  induction cs generalizing sign flags with
  | nil =>
    cases h
    rfl
  | cons c cs ih =>
    unfold flagsFrom at h
    split at h
    · rename_i hc
      rw [← ih h hknown, hc]
      rfl
    split at h
    · rename_i hc
      rw [← ih h hknown, hc]
      rfl
    · obtain ⟨granted, rfl, h⟩ := Option.bind_eq_some_iff.mp h
      obtain ⟨flags', hflags, rfl⟩ := Option.map_eq_some_iff.mp h
      have hrest := ih hflags fun f hf => hknown f (List.mem_cons_of_mem _ hf)
      have hhead := takesArg_eq (hknown _ (List.mem_cons_self ..))
      have hcount : taken (c :: cs) = (if (ChannelMode.ofChar c).takesArg then 1 else 0) + taken cs := by
        unfold taken
        rw [List.filter_cons]
        split <;> simp [Nat.add_comm]
      have hone : takesArgument granted (.ofChar c) = some true →
          (granted, ChannelMode.ofChar c) ≠ (false, .limit) := by
        rintro htakes heq
        obtain ⟨rfl, hmode⟩ := Prod.mk.inj heq
        rw [hmode] at htakes
        exact absurd htakes (by decide)
      rw [hcount, hrest, hhead, List.filter_cons, List.filter_cons]
      by_cases htakes : takesArgument granted (.ofChar c) = some true
      · simp [htakes, hone htakes]
        omega
      · by_cases hlimit : (granted, ChannelMode.ofChar c) = (false, .limit)
        · simp [htakes, hlimit]
          omega
        · simp [htakes, hlimit]

theorem known_of_pair (h : pair flags args = some (changes, rest)) :
    ∀ f ∈ flags, takesArgument f.1 f.2 ≠ none := by
  induction flags generalizing args changes with
  | nil => simp
  | cons f flags ih =>
    obtain ⟨granted, mode⟩ := f
    unfold pair at h
    obtain ⟨takes, htakes, h⟩ := Option.bind_eq_some_iff.mp h
    have hrest : ∃ args' changes', pair flags args' = some (changes', rest) := by
      cases takes with
      | false => exact ⟨args, changes, h⟩
      | true =>
        cases args with
        | nil => cases h
        | cons target args =>
          obtain ⟨⟨changes', rest'⟩, hpair, heq⟩ := Option.map_eq_some_iff.mp h
          cases heq
          exact ⟨args, changes', hpair⟩
    obtain ⟨args', changes', hrest⟩ := hrest
    rintro f (- | ⟨-, hf⟩)
    · simp [htakes]
    · exact ih hrest f hf

def lineChanges (pieces : List String) : List PrivilegeChange :=
  privilegeChanges (parseModes ChannelMode.ofChar ChannelMode.takesArg pieces)

theorem lineChanges_cons (letters : String) (args : List String) :
    lineChanges (letters :: args) = ((flagsFrom none letters.toList).bind fun flags =>
      (pair flags (args.take (taken letters.toList))).bind fun (changes, rest) =>
        if rest = [] then some changes else none).getD [] := by
  rw [lineChanges, parseModes, privilegeChanges, flagsOf_modesOf]
  simp only [signOf]
  cases flagsFrom none letters.toList with
  | none => rfl
  | some flags =>
    simp only [Option.map_some, Option.bind_some]
    cases pair flags (args.take (taken letters.toList)) with
    | none => rfl
    | some paired =>
      obtain ⟨changes, rest⟩ := paired
      cases rest <;> rfl

theorem lineChanges_of_none (h : reference pieces = none) : lineChanges pieces = [] := by
  cases pieces with
  | nil => cases h
  | cons letters args =>
    rw [reference, walk_eq] at h
    rw [lineChanges_cons]
    cases hflags : flagsFrom none letters.toList with
    | none => rfl
    | some flags =>
      rw [hflags, Option.bind_some] at h
      rw [Option.bind_some]
      cases hpair : pair flags (args.take (taken letters.toList)) with
      | none => rfl
      | some paired =>
        obtain ⟨changes, rest⟩ := paired
        obtain ⟨used, htake, -, hmore⟩ := pair_eq_some hpair
        have hall := hmore (rest ++ args.drop (taken letters.toList))
        rw [← List.append_assoc, ← htake, List.take_append_drop, h] at hall
        cases hall

theorem lineChanges_of_some (h : reference pieces = some (changes, rest)) :
    lineChanges pieces = if rest = [] ∨ lineClearsLimit pieces = false then changes else [] := by
  cases pieces with
  | nil =>
    cases h
    rfl
  | cons letters args =>
    rw [reference, walk_eq] at h
    obtain ⟨flags, hflags, hpair⟩ := Option.bind_eq_some_iff.mp h
    obtain ⟨used, rfl, hlength, hmore⟩ := pair_eq_some hpair
    have htaken := taken_eq hflags (known_of_pair hpair)
    have hclears : lineClearsLimit (letters :: (used ++ rest)) = true ↔
        (false, .limit) ∈ flags := clearsLimit_iff hflags
    have htake : (used ++ rest).take (taken letters.toList) =
        used ++ rest.take (flags.filter (· = (false, .limit))).length := by
      rw [htaken, ← hlength, List.take_length_add_append]
    have hnone : (flags.filter (· = (false, .limit))).length = 0 ↔ (false, .limit) ∉ flags := by
      rw [List.length_eq_zero_iff, List.filter_eq_nil_iff]
      simp only [decide_eq_true_eq]
      exact ⟨fun hall hmem => hall _ hmem rfl, fun hmem f hf heq => hmem (heq ▸ hf)⟩
    rw [lineChanges_cons, hflags, Option.bind_some, htake, hmore, Option.bind_some]
    simp only [List.take_eq_nil_iff, hnone, ← hclears, Bool.not_eq_true]
    by_cases hlost : rest = [] ∨ lineClearsLimit (letters :: (used ++ rest)) = false
    · rw [if_pos hlost, if_pos hlost.symm]
      rfl
    · rw [if_neg hlost, if_neg fun h => hlost h.symm]
      rfl

/-- The changes of a line are those of the reference, or there are none; a line with exactly the
arguments its letters take has them all, and any other line has none. -/
def LineRight (pieces : List String) : Prop :=
  (lineChanges pieces = [] ∨ ∃ rest, reference pieces = some (lineChanges pieces, rest)) ∧
  (∀ changes, reference pieces = some (changes, []) → lineChanges pieces = changes) ∧
  ((∀ changes, reference pieces ≠ some (changes, [])) → lineChanges pieces = [])

/-- A line is read right unless it makes a change, leaves an argument over, and clears no limit:
then the parser has dropped what is left over. -/
theorem lineRight_iff (pieces : List String) :
    LineRight pieces ↔ ∀ changes rest, reference pieces = some (changes, rest) →
      changes = [] ∨ rest = [] ∨ lineClearsLimit pieces = true := by
  constructor
  · rintro ⟨-, -, hnothing⟩ changes rest href
    by_cases hrest : rest = []
    · exact .inr (.inl hrest)
    cases hclears : lineClearsLimit pieces with
    | true => exact .inr (.inr rfl)
    | false =>
      left
      rw [← hnothing fun changes' h => ?_, lineChanges_of_some href, if_pos (.inr hclears)]
      rw [href] at h
      exact hrest (Prod.mk.inj (Option.some.inj h)).2
  · intro hright
    cases href : reference pieces with
    | none =>
      have hnone := lineChanges_of_none href
      refine ⟨.inl hnone, fun changes h => ?_, fun _ => hnone⟩
      rw [href] at h
      cases h
    | some paired =>
      obtain ⟨changes, rest⟩ := paired
      have heq := lineChanges_of_some href
      refine ⟨?_, fun changes' h => ?_, fun hno => ?_⟩
      · rw [heq]
        split
        · exact .inr ⟨rest, href⟩
        · exact .inl rfl
      · rw [href] at h
        cases h
        rw [heq, if_pos (.inl rfl)]
      · have hrest : rest ≠ [] := by
          rintro rfl
          exact hno changes href
        rcases hright changes rest href with hchanges | hnil | hclears
        · rw [heq, hchanges, ite_self]
        · exact absurd hnil hrest
        · rw [heq, if_neg (by simp [hrest, hclears])]

/-- A grant with an argument too many. -/
theorem argument_left_over_dropped : ¬LineRight ["+o", "alice", "bob"] :=
  fun h => absurd (h.2.2 fun changes hc => absurd (Prod.mk.inj (Option.some.inj hc)).2 (by decide))
    (by decide)

end Privileges

end CayenChat
