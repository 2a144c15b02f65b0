import CayenChat.App.State
import CayenChat.Lib.Newest

/-! # The combined log

The newest lines of all conversations but one, merged with the system lines. The lines of the
conversations come from a heap of their ends; the cut made there and the cut of the merge together
keep what one cut of everything would keep.
-/

namespace CayenChat.App
open Merged

/-- What a row of the combined log shows. -/
inductive CombinedRow
  | line (id : ConversationId) (index : ℕ)
  | system (index : ℕ)
  deriving DecidableEq, Repr

abbrev Head := ℤ ×ₗ ℕ ×ₗ ℕ

def headAt (conversations : List Conversation) (position index : ℕ) : Option Head := do
  let conversation ← conversations[position]?
  let message ← conversation.messages[index]?
  some (toLex (message.sequence, toLex (position, index)))

def previousHead (conversations : List Conversation) (head : Head) : Option Head :=
  let (position, index) := ofLex (ofLex head).2
  match index with
  | 0 => none
  | previous + 1 => headAt conversations position previous

def newestHeads (conversations : List Conversation) (excluded : Option ConversationId) : List Head :=
  conversations.zipIdx.filterMap fun (conversation, position) =>
    if some conversation.id = excluded then none
    else match conversation.messages.length with
      | 0 => none
      | index + 1 => headAt conversations position index

def lineOf (conversations : List Conversation) (head : Head) : Option (ℤ × ConversationId × ℕ) :=
  let (position, index) := ofLex (ofLex head).2
  conversations[position]?.map fun conversation => ((ofLex head).1, conversation.id, index)

def newestLines (conversations : List Conversation) (excluded : Option ConversationId) (limit : ℕ) :
    List (ℤ × ConversationId × ℕ) :=
  ((takeNewest (previousHead conversations) limit
    (newestHeads conversations excluded)).filterMap (lineOf conversations)).reverse

def lineRow (line : ℤ × ConversationId × ℕ) : ℤ × CombinedRow := (line.1, .line line.2.1 line.2.2)

def systemRows (system : List (NetworkId × Message)) : List (ℤ × CombinedRow) :=
  system.zipIdx.map fun (line, index) => (line.2.sequence, .system index)

def combinedRows (lines : List (ℤ × ConversationId × ℕ)) (system : List (NetworkId × Message))
    (limit : ℕ) : List (ℤ × CombinedRow) :=
  let rows := List.merge (lines.map lineRow) (systemRows system) (·.1 ≤ ·.1)
  rows.drop (rows.length - limit)

/-! ## Every line -/

def conversationRows (conversation : Conversation) : List (ℤ × CombinedRow) :=
  conversation.messages.zipIdx.map fun (message, index) =>
    (message.sequence, .line conversation.id index)

def allRows (conversations : List Conversation) (excluded : Option ConversationId)
    (system : List (NetworkId × Message)) : List (ℤ × CombinedRow) :=
  (conversations.filter fun conversation => some conversation.id ≠ excluded).flatMap
    conversationRows ++ systemRows system

variable {conversations : List Conversation} {conversation : Conversation}
  {excluded : Option ConversationId} {system : List (NetworkId × Message)} {position index limit : ℕ}
  {head next : Head} {message : Message}

/-! ## What lies behind a head -/

def linesBelow (conversations : List Conversation) (position : ℕ) : ℕ → List Head
  | 0 => []
  | index + 1 =>
    (headAt conversations position index).toList.flatMap (· :: linesBelow conversations position index)

def chain (conversations : List Conversation) (head : Head) : List Head :=
  head :: linesBelow conversations (ofLex (ofLex head).2).1 (ofLex (ofLex head).2).2

def conversationHeads (conversation : Conversation) (position : ℕ) : List Head :=
  conversation.messages.zipIdx.map fun (message, index) =>
    toLex (message.sequence, toLex (position, index))

theorem headAt_eq_some : headAt conversations position index = some head ↔
    ∃ conversation message, conversations[position]? = some conversation ∧
      conversation.messages[index]? = some message ∧
      head = toLex (message.sequence, toLex (position, index)) := by
  unfold headAt
  cases conversations[position]? with
  | none => simp
  | some conversation =>
    cases hmessage : conversation.messages[index]? with
    | none => simp [hmessage]
    | some message => simp [hmessage, eq_comm]

theorem chain_of_headAt (h : headAt conversations position index = some head) :
    chain conversations head = head :: linesBelow conversations position index := by
  obtain ⟨conversation, message, -, -, rfl⟩ := headAt_eq_some.mp h
  rfl

theorem linesBelow_succ (conversations : List Conversation) (position index : ℕ) :
    linesBelow conversations position (index + 1) =
      (headAt conversations position index).toList.flatMap (chain conversations) := by
  rw [linesBelow]
  apply List.flatMap_congr
  intro head hhead
  exact (chain_of_headAt (Option.mem_toList.mp hhead)).symm

theorem chain_eq (head : Head) : chain conversations head =
    head :: (previousHead conversations head).toList.flatMap (chain conversations) := by
  rw [chain, previousHead]
  rcases head with ⟨sequence, position, index⟩
  cases index with
  | zero => rfl
  | succ index => exact congrArg _ (linesBelow_succ ..)

theorem linesBelow_eq (h : conversations[position]? = some conversation)
    (hindex : index ≤ conversation.messages.length) :
    linesBelow conversations position index =
      ((conversationHeads conversation position).take index).reverse := by
  induction index with
  | zero => simp [linesBelow]
  | succ index ih =>
    have hmessage : conversation.messages[index]? = some conversation.messages[index] :=
      List.getElem?_eq_getElem hindex
    have hhead := headAt_eq_some.mpr ⟨conversation, _, h, hmessage, rfl⟩
    have hlast : (conversationHeads conversation position)[index]? =
        some (toLex (conversation.messages[index].sequence, toLex (position, index))) := by
      simp [conversationHeads, hmessage]
    rw [linesBelow, hhead, ih (by omega), List.take_add_one, hlast]
    simp

theorem conversationHeads_sorted (position : ℕ)
    (h : conversation.messages.Pairwise fun a b => a.sequence ≤ b.sequence) :
    (conversationHeads conversation position).Pairwise (· ≤ ·) := by
  rw [conversationHeads, List.pairwise_map, List.pairwise_iff_getElem]
  intro i j hi hj hij
  simp only [List.length_zipIdx] at hi hj
  simp only [List.getElem_zipIdx, Nat.zero_add]
  have hsequence := List.pairwise_iff_getElem.mp h i j hi hj hij
  rw [Prod.Lex.toLex_le_toLex]
  rcases hsequence.lt_or_eq with hlt | heq
  · exact Or.inl hlt
  · refine Or.inr ⟨heq, ?_⟩
    rw [Prod.Lex.toLex_le_toLex]
    exact Or.inr ⟨rfl, hij.le⟩

theorem mem_newestHeads : head ∈ newestHeads conversations excluded ↔
    ∃ conversation position index, conversations[position]? = some conversation ∧
      some conversation.id ≠ excluded ∧ conversation.messages.length = index + 1 ∧
      headAt conversations position index = some head := by
  rw [newestHeads, List.mem_filterMap]
  constructor
  · rintro ⟨⟨conversation, position⟩, hmem, h⟩
    rw [List.mk_mem_zipIdx_iff_getElem?] at hmem
    dsimp only at h
    by_cases hexcluded : some conversation.id = excluded
    · simp [hexcluded] at h
    · rw [if_neg hexcluded] at h
      cases hlength : conversation.messages.length with
      | zero => simp [hlength] at h
      | succ index =>
        rw [hlength] at h
        exact ⟨conversation, position, index, hmem, hexcluded, hlength, h⟩
  · rintro ⟨conversation, position, index, hmem, hexcluded, hlength, h⟩
    refine ⟨(conversation, position), List.mk_mem_zipIdx_iff_getElem?.mpr hmem, ?_⟩
    dsimp only
    rw [if_neg hexcluded, hlength]
    exact h

theorem chain_newest (h : conversations[position]? = some conversation)
    (hlength : conversation.messages.length = index + 1)
    (hhead : headAt conversations position index = some head) :
    chain conversations head = (conversationHeads conversation position).reverse := by
  have hbelow := linesBelow_succ conversations position index
  rw [linesBelow_eq h hlength.ge, hhead] at hbelow
  have hall : (conversationHeads conversation position).length ≤ index + 1 := by
    simp [conversationHeads, hlength]
  rw [List.take_of_length_le hall] at hbelow
  simpa using hbelow.symm

def rowOf (conversations : List Conversation) (head : Head) : Option (ℤ × CombinedRow) :=
  (lineOf conversations head).map lineRow

theorem rowOf_conversationHeads (h : conversations[position]? = some conversation) :
    (conversationHeads conversation position).filterMap (rowOf conversations) =
      conversationRows conversation := by
  rw [conversationHeads, List.filterMap_map, conversationRows, ← List.filterMap_eq_map]
  apply List.filterMap_congr
  rintro ⟨message, index⟩ -
  simp [rowOf, lineOf, lineRow, h]

theorem rowOf_fst {row : ℤ × CombinedRow} (h : rowOf conversations head = some row) :
    row.1 = (ofLex head).1 := by
  obtain ⟨line, hline, rfl⟩ := Option.map_eq_some_iff.mp h
  obtain ⟨conversation, -, rfl⟩ := Option.map_eq_some_iff.mp hline
  rfl

theorem rows_behind (conversations : List Conversation) (excluded : Option ConversationId) :
    ((newestHeads conversations excluded).flatMap (chain conversations)).filterMap
      (rowOf conversations) = conversations.zipIdx.flatMap fun pair =>
        if some pair.1.id = excluded then [] else (conversationRows pair.1).reverse := by
  rw [List.filterMap_flatMap, newestHeads, List.filterMap_eq_flatMap_toList, List.flatMap_assoc]
  apply List.flatMap_congr
  rintro ⟨conversation, position⟩ hmem
  rw [List.mk_mem_zipIdx_iff_getElem?] at hmem
  dsimp only
  by_cases hexcluded : some conversation.id = excluded
  · simp [hexcluded]
  · rw [if_neg hexcluded, if_neg hexcluded]
    cases hlength : conversation.messages.length with
    | zero => simp [conversationRows, List.eq_nil_of_length_eq_zero hlength]
    | succ index =>
      have hmessage : conversation.messages[index]? = some conversation.messages[index] :=
        List.getElem?_eq_getElem (by omega)
      have hhead := headAt_eq_some.mpr ⟨conversation, _, hmem, hmessage, rfl⟩
      have hchain := chain_newest hmem hlength hhead
      simp only [hhead, Option.toList_some, List.flatMap_singleton, hchain]
      rw [List.filterMap_reverse, rowOf_conversationHeads hmem]

theorem flatMap_reverse_perm (conversations : List Conversation) :
    (conversations.flatMap fun conversation =>
      if some conversation.id = excluded then [] else (conversationRows conversation).reverse).Perm
      ((conversations.filter fun conversation => some conversation.id ≠ excluded).flatMap
        conversationRows) := by
  induction conversations with
  | nil => exact .nil
  | cons conversation conversations ih =>
    rw [List.flatMap_cons]
    by_cases hexcluded : some conversation.id = excluded
    · simpa [hexcluded] using ih
    · rw [if_neg hexcluded, List.filter_cons_of_pos (by simpa using hexcluded), List.flatMap_cons]
      exact (List.reverse_perm _).append ih

theorem rows_behind_perm (conversations : List Conversation) (excluded : Option ConversationId) :
    (((newestHeads conversations excluded).flatMap (chain conversations)).filterMap
      (rowOf conversations)).Perm
      ((conversations.filter fun conversation => some conversation.id ≠ excluded).flatMap
        conversationRows) := by
  have hfst := List.flatMap_map Prod.fst (fun conversation : Conversation =>
    if some conversation.id = excluded then [] else (conversationRows conversation).reverse)
    conversations.zipIdx
  rw [List.zipIdx_map_fst] at hfst
  rw [rows_behind, ← hfst]
  exact flatMap_reverse_perm conversations

/-! ## The rows of the log -/

theorem systemRows_fst : (systemRows system).map Prod.fst = system.map (·.2.sequence) := by
  rw [systemRows, List.map_map]
  conv_rhs => rw [← List.zipIdx_map_fst 0 system, List.map_map]
  rfl

theorem chains_sorted
    (hlogs : ∀ c ∈ conversations, c.messages.Pairwise fun a b => a.sequence ≤ b.sequence)
    (hhead : head ∈ newestHeads conversations excluded) :
    (chain conversations head).Pairwise (· ≥ ·) := by
  obtain ⟨conversation, position, index, hmem, -, hlength, hat⟩ := mem_newestHeads.mp hhead
  rw [chain_newest hmem hlength hat, List.pairwise_reverse]
  exact conversationHeads_sorted position (hlogs _ (List.mem_of_getElem? hmem))

theorem rowOf_isSome (hhead : head ∈ (newestHeads conversations excluded).flatMap
    (chain conversations)) : (lineOf conversations head).isSome = true := by
  obtain ⟨newest, hnewest, hhead⟩ := List.mem_flatMap.mp hhead
  obtain ⟨conversation, position, index, hmem, -, hlength, hat⟩ := mem_newestHeads.mp hnewest
  rw [chain_newest hmem hlength hat, List.mem_reverse, conversationHeads, List.mem_map] at hhead
  obtain ⟨⟨message, index⟩, -, rfl⟩ := hhead
  simp [lineOf, hmem]

theorem length_filterMap_of_isSome {α β : Type*} {f : α → Option β} {l : List α}
    (h : ∀ a ∈ l, (f a).isSome = true) : (l.filterMap f).length = l.length := by
  rw [List.length_filterMap_eq_countP]
  exact List.countP_eq_length.mpr h

theorem rowsAscending_iff {rows : List (ℤ × CombinedRow)} :
    rows.Pairwise (fun a b => decide (a.1 ≤ b.1) = true) ↔ rows.Pairwise fun a b => a.1 ≤ b.1 := by
  simp only [decide_eq_true_eq]

theorem rows_trans (a b c : ℤ × CombinedRow) : decide (a.1 ≤ b.1) = true →
    decide (b.1 ≤ c.1) = true → decide (a.1 ≤ c.1) = true := by
  simp only [decide_eq_true_eq]
  exact le_trans

theorem rows_total (a b : ℤ × CombinedRow) :
    (decide (a.1 ≤ b.1) || decide (b.1 ≤ a.1)) = true := by
  simp only [Bool.or_eq_true, decide_eq_true_eq]
  exact le_total a.1 b.1

theorem rows_ascending {heads : List Head} (h : heads.Pairwise (· ≥ ·)) :
    ((heads.filterMap (rowOf conversations)).reverse).Pairwise fun a b => a.1 ≤ b.1 := by
  rw [List.pairwise_reverse, List.pairwise_filterMap]
  apply h.imp
  intro a b hab row hrow row' hrow'
  rw [rowOf_fst hrow, rowOf_fst hrow']
  exact Prod.Lex.monotone_fst_ofLex hab

theorem systemRows_ascending (h : system.Pairwise fun a b => a.2.sequence ≤ b.2.sequence) :
    (systemRows system).Pairwise fun a b => a.1 ≤ b.1 := by
  have hmap : ((systemRows system).map Prod.fst).Pairwise (· ≤ ·) := by
    rw [systemRows_fst, List.pairwise_map]
    exact h
  exact List.pairwise_map.mp hmap

theorem map_lineRow_newestLines : (newestLines conversations excluded limit).map lineRow =
    ((takeNewest (previousHead conversations) limit (newestHeads conversations excluded)).filterMap
      (rowOf conversations)).reverse := by
  rw [newestLines, List.map_reverse, List.map_filterMap]
  rfl

/-- The combined log is the newest rows of everything: all lines of the conversations that are not
excluded and all system lines, in ascending order. -/
theorem combinedRows_endOf
    (hlogs : ∀ c ∈ conversations, c.messages.Pairwise fun a b => a.sequence ≤ b.sequence)
    (hsystem : system.Pairwise fun a b => a.2.sequence ≤ b.2.sequence) :
    EndOf (fun a b => a.1 ≤ b.1) limit (allRows conversations excluded system)
      (combinedRows (newestLines conversations excluded limit) system limit) := by
  have hdown : ∀ head ∈ newestHeads conversations excluded,
      (chain conversations head).Pairwise (· ≥ ·) := fun _ => chains_sorted hlogs
  have hchain : ∀ head, chain conversations head =
      head :: (previousHead conversations head).toList.flatMap (chain conversations) := chain_eq
  obtain ⟨rest, hperm, hsorted, hlength⟩ := takeNewest_spec (n := limit) hchain hdown
  set taken := takeNewest (previousHead conversations) limit (newestHeads conversations excluded)
  set older := (rest.filterMap (rowOf conversations)).reverse
  set kept := (taken.filterMap (rowOf conversations)).reverse
  have hall : older ++ kept = ((taken ++ rest).filterMap (rowOf conversations)).reverse := by
    simp [older, kept]
  have hasc : (older ++ kept).Pairwise fun a b => a.1 ≤ b.1 := by
    rw [hall]
    exact rows_ascending hsorted
  have hcut : kept.length = limit ∨ older = [] := by
    rcases hlength with hlength | hlength
    · left
      have hrows : ∀ head ∈ taken, (rowOf conversations head).isSome = true := by
        intro head hhead
        rw [rowOf, Option.isSome_map]
        exact rowOf_isSome (hperm.mem_iff.mp (List.mem_append_left _ hhead))
      rw [List.length_reverse, length_filterMap_of_isSome hrows, hlength]
    · right
      simp [older, hlength]
  refine ⟨List.merge (older ++ kept) (systemRows system) (·.1 ≤ ·.1), ?_, ?_, ?_⟩
  · refine (List.merge_perm_append _).trans (.append_right _ ?_)
    rw [hall]
    exact (List.reverse_perm _).trans ((hperm.filterMap _).trans (rows_behind_perm ..))
  · rw [← rowsAscending_iff]
    apply List.pairwise_merge rows_trans rows_total
    · exact rowsAscending_iff.mpr hasc
    · exact rowsAscending_iff.mpr (systemRows_ascending hsystem)
  · rw [combinedRows, map_lineRow_newestLines]
    change lastN limit (List.merge kept (systemRows system) _) = _
    rcases hcut with hcut | hcut
    · exact (lastN_merge rows_trans (rowsAscending_iff.mpr hasc) hcut).symm
    · rw [hcut]
      rfl

def PointsAt (conversations : List Conversation) (excluded : Option ConversationId)
    (system : List (NetworkId × Message)) : ℤ × CombinedRow → Prop
  | (sequence, .line id index) => ∃ conversation ∈ conversations, conversation.id = id ∧
      some id ≠ excluded ∧ (conversation.messages[index]?).map (·.sequence) = some sequence
  | (sequence, .system index) => (system[index]?).map (·.2.sequence) = some sequence

theorem pointsAt_of_mem {row : ℤ × CombinedRow} (h : row ∈ allRows conversations excluded system) :
    PointsAt conversations excluded system row := by
  rcases List.mem_append.mp h with h | h
  · obtain ⟨conversation, hmem, h⟩ := List.mem_flatMap.mp h
    obtain ⟨hmem, hexcluded⟩ := List.mem_filter.mp hmem
    obtain ⟨⟨message, index⟩, hmessage, rfl⟩ := List.mem_map.mp h
    rw [List.mk_mem_zipIdx_iff_getElem?] at hmessage
    exact ⟨conversation, hmem, rfl, by simpa using hexcluded, by simp [hmessage]⟩
  · obtain ⟨⟨line, index⟩, hline, rfl⟩ := List.mem_map.mp h
    rw [List.mk_mem_zipIdx_iff_getElem?] at hline
    simp [PointsAt, hline]

theorem nodup_map_zipIdx {α β : Type*} {l : List α} {f : α × ℕ → β}
    (h : ∀ a b, f a = f b → a.2 = b.2) : (l.zipIdx.map f).Nodup := by
  have hindex : (l.zipIdx.map Prod.snd).Nodup := by
    rw [List.zipIdx_map_snd]
    exact List.nodup_range'
  rw [List.Nodup, List.pairwise_map] at hindex ⊢
  apply hindex.imp
  intro a b hne heq
  exact hne (h a b heq)

theorem nodup_allRows (h : (conversations.map (·.id)).Nodup) :
    (allRows conversations excluded system).Nodup := by
  have hline : ∀ {c : Conversation} {row : ℤ × CombinedRow}, row ∈ conversationRows c →
      ∃ index, row.2 = .line c.id index := by
    rintro c row hrow
    obtain ⟨⟨message, index⟩, -, rfl⟩ := List.mem_map.mp hrow
    exact ⟨index, rfl⟩
  refine List.nodup_append.mpr ⟨List.nodup_flatMap.mpr ⟨?_, ?_⟩, ?_, ?_⟩
  · intro c _
    apply nodup_map_zipIdx
    rintro ⟨message, index⟩ ⟨other, index'⟩ heq
    simp only [Prod.mk.injEq, CombinedRow.line.injEq] at heq
    exact heq.2.2
  · apply List.Pairwise.filter
    rw [List.Nodup, List.pairwise_map] at h
    apply h.imp
    intro c d hne row hc hd
    obtain ⟨index, hc⟩ := hline hc
    obtain ⟨index', hd⟩ := hline hd
    rw [hc] at hd
    exact hne (CombinedRow.line.inj hd).1
  · apply nodup_map_zipIdx
    rintro ⟨message, index⟩ ⟨other, index'⟩ heq
    simp only [Prod.mk.injEq, CombinedRow.system.injEq] at heq
    exact heq.2
  · rintro row hrow other hother rfl
    obtain ⟨c, -, hrow⟩ := List.mem_flatMap.mp hrow
    obtain ⟨index, hrow⟩ := hline hrow
    obtain ⟨⟨message, index'⟩, -, rfl⟩ := List.mem_map.mp hother
    cases hrow

/-- The combined log is the merge it stands for: the newest rows of all lines of the conversations
that are not excluded and of all system lines, oldest first. Each row points at its line, and no
line has two rows. -/
theorem combined_log_newest (conversations : List Conversation) (system : List (NetworkId × Message))
    (excluded : Option ConversationId) (limit : ℕ)
    (hlogs : ∀ c ∈ conversations, c.messages.Pairwise fun a b => a.sequence ≤ b.sequence)
    (hsystem : system.Pairwise fun a b => a.2.sequence ≤ b.2.sequence) :
    (∃ rows : List (ℤ × CombinedRow), rows.Perm (allRows conversations excluded system) ∧
      rows.Pairwise (fun a b => a.1 ≤ b.1) ∧
      combinedRows (newestLines conversations excluded limit) system limit =
        rows.drop (rows.length - limit)) ∧
    (∀ row ∈ combinedRows (newestLines conversations excluded limit) system limit,
      PointsAt conversations excluded system row) ∧
    ((conversations.map (·.id)).Nodup →
      (combinedRows (newestLines conversations excluded limit) system limit).Nodup) := by
  have hend : EndOf (fun a b => a.1 ≤ b.1) limit (allRows conversations excluded system)
      (combinedRows (newestLines conversations excluded limit) system limit) :=
    combinedRows_endOf hlogs hsystem
  obtain ⟨rows, hperm, hsorted, heq⟩ := hend
  refine ⟨⟨rows, hperm, hsorted, heq⟩, ?_, ?_⟩
  · intro row hrow
    rw [heq] at hrow
    exact pointsAt_of_mem (hperm.mem_iff.mp (List.mem_of_mem_drop hrow))
  · intro hids
    rw [heq]
    exact ((hperm.nodup_iff).mpr (nodup_allRows hids)).sublist (List.drop_sublist ..)

private def heldLine (sequence : ℤ) : Message := { sequence := sequence, sender := "al", text := "hi" }

private def twoLogs : List Conversation :=
  [⟨1, 0, .channel, "#a", [heldLine 1, heldLine 3]⟩, ⟨2, 0, .channel, "#b", [heldLine 2, heldLine 3]⟩]

theorem combined_log_two : combinedRows (newestLines twoLogs none 3) [(0, heldLine 3)] 3 =
      [(3, .line 1 1), (3, .line 2 1), (3, .system 0)] ∧
    (combinedRows (newestLines twoLogs none 3) [(0, heldLine 3)] 3).Nodup := by
  constructor
  · have hlines : newestLines twoLogs none 3 = [(2, 2, 0), (3, 1, 1), (3, 2, 1)] := by decide +kernel
    simp [hlines, combinedRows, systemRows, lineRow, heldLine]
  · exact (combined_log_newest twoLogs [(0, heldLine 3)] none 3 (by decide) (by decide)).2.2 (by decide)

end CayenChat.App
