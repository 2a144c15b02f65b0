import CayenChat.Lib.Ranges

/-! # Runs and partitions of a text

Ranges of characters of one kind that reach as far as they can, and ranges that follow each other
from one position to another.
-/

namespace Utf8

variable {s p q m : List Char} {member : Char → Bool} {c d : Char} {n k a b : ℕ} {r r' : Range}

/-! ## Characters -/

def CharAt (s : List Char) (n : ℕ) (c : Char) : Prop := ∃ p q, s = p ++ c :: q ∧ size p = n

theorem CharAt.boundary (h : CharAt s n c) : Boundary s n := by
  obtain ⟨p, q, rfl, rfl⟩ := h
  exact boundary_append p _

theorem CharAt.lt_size (h : CharAt s n c) : n < size s := by
  obtain ⟨p, q, rfl, rfl⟩ := h
  have := c.utf8Size_pos
  simp only [size_append, size_cons]
  omega

theorem CharAt.unique (h : CharAt s n c) (h' : CharAt s n d) : c = d := by
  obtain ⟨p, q, rfl, rfl⟩ := h
  obtain ⟨p', q', heq, hsize⟩ := h'
  have hsplit := split_append p (c :: q)
  rw [split_eq_some.mpr ⟨heq, hsize⟩] at hsplit
  simp_all

theorem CharAt.next_le (h : CharAt s n c) (hb : Boundary s b) (hlt : n < b) :
    n + c.utf8Size ≤ b := by
  obtain ⟨p, q, rfl, rfl⟩ := h
  obtain ⟨x, y, hx, hsize⟩ := hb.of_append_right hlt.le
  cases x with
  | nil =>
    rw [size_nil] at hsize
    omega
  | cons d x =>
    obtain ⟨rfl, -⟩ := List.cons.inj hx
    rw [size_cons] at hsize
    omega

theorem exists_charAt (hb : Boundary s n) (hlt : n < size s) : ∃ c, CharAt s n c := by
  obtain ⟨p, q, rfl, rfl⟩ := hb
  cases q with
  | nil =>
    rw [size_append, size_nil] at hlt
    omega
  | cons c q => exact ⟨c, p, q, rfl, rfl⟩

theorem exists_charAt_before (hb : Boundary s b) (hpos : 0 < b) :
    ∃ n c, CharAt s n c ∧ n + c.utf8Size = b := by
  obtain ⟨p, q, rfl, rfl⟩ := hb
  rcases p.eq_nil_or_concat' with rfl | ⟨p, c, rfl⟩
  · rw [size_nil] at hpos
    omega
  · exact ⟨size p, c, ⟨p, q, by simp, rfl⟩, by simp⟩

theorem CharAt.append_right (h : CharAt m n c) (p q : List Char) :
    CharAt (p ++ m ++ q) (size p + n) c := by
  obtain ⟨x, y, rfl, rfl⟩ := h
  exact ⟨p ++ x, y ++ q, by simp, by simp⟩

theorem charAt_middle (h : CharAt (p ++ m ++ q) n c) (hstart : size p ≤ n)
    (hstop : n < size p + size m) : CharAt m (n - size p) c := by
  have hb : Boundary m (n - size p) := by
    have hleft : Boundary (p ++ m) n := h.boundary.of_append (by rw [size_append]; omega)
    exact hleft.of_append_right hstart
  obtain ⟨d, hd⟩ := exists_charAt hb (by omega)
  have heq := hd.append_right p q
  rw [Nat.add_sub_cancel' hstart] at heq
  rw [h.unique heq]
  exact hd

theorem CharAt.mem (h : CharAt s n c) : c ∈ s := by
  obtain ⟨p, q, rfl, -⟩ := h
  simp

theorem exists_charAt_of_mem (h : c ∈ s) : ∃ n, CharAt s n c := by
  obtain ⟨p, q, rfl⟩ := List.append_of_mem h
  exact ⟨size p, p, q, rfl, rfl⟩

/-! ## Runs -/

instance : Decidable (r.Contains n) := inferInstanceAs (Decidable (_ ∧ _))

def Range.shift (r : Range) (n : ℕ) : Range := ⟨n + r.start, n + r.stop⟩

/-- A range of such characters that no such character stands next to. -/
structure MaximalRun (s : List Char) (member : Char → Bool) (r : Range) : Prop where
  span : Span s r
  inside : ∀ n c, CharAt s n c → r.Contains n → member c = true
  before : ∀ n c, CharAt s n c → n + c.utf8Size = r.start → member c = false
  behind : ∀ c, CharAt s r.stop c → member c = false

theorem MaximalRun.eq_of_touch (h : MaximalRun s member r) (h' : MaximalRun s member r')
    (hle : r.start ≤ r'.start) (htouch : r'.start ≤ r.stop) : r = r' := by
  have hstart : r.start = r'.start := by
    rcases hle.eq_or_lt with heq | hlt
    · exact heq
    · obtain ⟨n, c, hc, hend⟩ := exists_charAt_before h'.span.start (by omega)
      have hpos := c.utf8Size_pos
      have hn : r.start ≤ n := by
        by_contra hn
        have := hc.next_le h.span.start (by omega)
        omega
      have hmember := h.inside n c hc ⟨hn, by omega⟩
      rw [h'.before n c hc hend] at hmember
      cases hmember
  have hstop : ∀ {x y : Range}, MaximalRun s member x → MaximalRun s member y →
      x.start = y.start → ¬x.stop < y.stop := by
    intro x y hx hy heq hlt
    obtain ⟨c, hc⟩ := exists_charAt hx.span.stop (hlt.trans_le hy.span.stop.le)
    have hmember := hy.inside _ c hc ⟨heq ▸ hx.span.le, hlt⟩
    rw [hx.behind c hc] at hmember
    cases hmember
  have := hstop h h' hstart
  have := hstop h' h hstart.symm
  obtain ⟨a, b⟩ := r
  obtain ⟨a', b'⟩ := r'
  dsimp only at *
  rw [Range.mk.injEq]
  omega

theorem MaximalRun.eq_or_apart (h : MaximalRun s member r) (h' : MaximalRun s member r') :
    r = r' ∨ r.stop < r'.start ∨ r'.stop < r.start := by
  rcases Nat.lt_or_ge r.stop r'.start with hlt | hge
  · exact .inr (.inl hlt)
  rcases Nat.lt_or_ge r'.stop r.start with hlt | hge'
  · exact .inr (.inr hlt)
  left
  rcases Nat.le_total r.start r'.start with hle | hle
  · exact h.eq_of_touch h' hle hge
  · exact (h'.eq_of_touch h hle hge').symm

theorem maximalRun_append (hm : ∀ c ∈ m, member c = true)
    (hp : ∀ c, p.getLast? = some c → member c = false)
    (hq : ∀ c, q.head? = some c → member c = false) :
    MaximalRun (p ++ m ++ q) member ⟨size p, size p + size m⟩ where
  span := span_append p m q
  inside := by
    rintro n c hc ⟨hstart, hstop⟩
    exact hm c (charAt_middle hc hstart hstop).mem
  before := by
    rintro n c ⟨x, y, heq, rfl⟩ hend
    have hsplit : (x ++ [c]) ++ y = p ++ (m ++ q) := by simp [← heq]
    have hsize : size (x ++ [c]) = size p := by simpa using hend
    have hleft := split_append (x ++ [c]) y
    rw [hsplit, hsize, split_append] at hleft
    obtain ⟨rfl, -⟩ := Prod.mk.inj (Option.some.inj hleft)
    exact hp c (by simp)
  behind := by
    rintro c ⟨x, y, heq, hsize⟩
    have hleft := split_append x (c :: y)
    have hsize : size x = size (p ++ m) := by rw [hsize, size_append]
    rw [← heq, hsize, split_append] at hleft
    obtain ⟨-, rfl⟩ := Prod.mk.inj (Option.some.inj hleft)
    exact hq c rfl

theorem MaximalRun.within (h : MaximalRun m member r)
    (hp : ∀ c, p.getLast? = some c → member c = false)
    (hq : ∀ c, q.head? = some c → member c = false) :
    MaximalRun (p ++ m ++ q) member (r.shift (size p)) := by
  obtain ⟨x, y, z, rfl, hx, hy⟩ := h.span.parts
  have hlast : ∀ c, (p ++ x).getLast? = some c → member c = false := by
    intro c hc
    rcases x.eq_nil_or_concat' with rfl | ⟨x, d, rfl⟩
    · exact hp c (by simpa using hc)
    · obtain rfl : d = c := by simpa [← List.append_assoc] using hc
      exact h.before (size x) d ⟨x, y ++ z, by simp, rfl⟩ (by rw [← hx]; simp)
  have hhead : ∀ c, (z ++ q).head? = some c → member c = false := by
    intro c hc
    cases z with
    | nil => exact hq c hc
    | cons d z =>
      obtain rfl : d = c := by simpa using hc
      exact h.behind d ⟨x ++ y, z, by simp, by rw [← hy, size_append]⟩
  have hmiddle : ∀ c ∈ y, member c = true := by
    intro c hc
    obtain ⟨n, hn⟩ := exists_charAt_of_mem hc
    have hlt := hn.lt_size
    exact h.inside _ c (hn.append_right x z) ⟨by omega, by omega⟩
  have hrun := maximalRun_append hmiddle hlast hhead
  have hrange : r.shift (size p) = ⟨size (p ++ x), size (p ++ x) + size y⟩ := by
    rw [Range.shift, size_append, ← hx, ← hy, Nat.add_assoc]
  have htext : p ++ (x ++ y ++ z) ++ q = p ++ x ++ y ++ (z ++ q) := by simp
  rwa [hrange, htext]

/-! ## Partitions -/

def Partition : List Range → ℕ → ℕ → Prop
  | [], a, b => a = b
  | r :: rs, a, b => r.start = a ∧ a < r.stop ∧ Partition rs r.stop b

variable {rs : List Range}

theorem Partition.le (h : Partition rs a b) : a ≤ b := by
  induction rs generalizing a with
  | nil => exact h.le
  | cons r rs ih =>
    obtain ⟨-, hlt, hrest⟩ := h
    exact hlt.le.trans (ih hrest)

theorem Partition.start_le (h : Partition rs a b) (hr : r ∈ rs) : a ≤ r.start := by
  induction rs generalizing a with
  | nil => cases hr
  | cons r' rs ih =>
    obtain ⟨hstart, hlt, hrest⟩ := h
    obtain rfl | hr := List.mem_cons.mp hr
    · exact hstart.ge
    · exact hlt.le.trans (ih hrest hr)

theorem Partition.exists_mem (h : Partition rs a b) (hle : a ≤ n) (hlt : n < b) :
    ∃ r ∈ rs, r.Contains n := by
  induction rs generalizing a with
  | nil =>
    have hab : a = b := h
    omega
  | cons r rs ih =>
    obtain ⟨hstart, -, hrest⟩ := h
    rcases Nat.lt_or_ge n r.stop with hn | hn
    · exact ⟨r, List.mem_cons_self, by omega, hn⟩
    · obtain ⟨r', hr', hcontains⟩ := ih hrest hn
      exact ⟨r', List.mem_cons_of_mem _ hr', hcontains⟩

theorem Partition.stop_le (h : Partition rs a b) (hr : r ∈ rs) : r.stop ≤ b := by
  induction rs generalizing a with
  | nil => cases hr
  | cons r' rs ih =>
    obtain ⟨-, -, hrest⟩ := h
    obtain rfl | hr := List.mem_cons.mp hr
    · exact hrest.le
    · exact ih hrest hr

theorem Partition.eq_or_disjoint (h : Partition rs a b) (hr : r ∈ rs) (hr' : r' ∈ rs) :
    r = r' ∨ r.stop ≤ r'.start ∨ r'.stop ≤ r.start := by
  induction rs generalizing a with
  | nil => cases hr
  | cons r₀ rs ih =>
    obtain ⟨-, -, hrest⟩ := h
    obtain rfl | hmem := List.mem_cons.mp hr <;> obtain rfl | hmem' := List.mem_cons.mp hr'
    · exact .inl rfl
    · exact .inr (.inl (hrest.start_le hmem'))
    · exact .inr (.inr (hrest.start_le hmem))
    · exact ih hrest hmem hmem'

theorem Partition.eq_of_mem (h : Partition rs a b) (hr : r ∈ rs) (hr' : r' ∈ rs)
    (hn : r.Contains n) (hn' : r'.Contains n) : r = r' := by
  obtain ⟨hstart, hstop⟩ := hn
  obtain ⟨hstart', hstop'⟩ := hn'
  obtain heq | hlt | hlt := h.eq_or_disjoint hr hr'
  · exact heq
  all_goals omega

def pieces : ℕ → List ℕ → ℕ → List Range
  | a, [], b => [⟨a, b⟩]
  | a, n :: ns, b => ⟨a, n⟩ :: pieces n ns b

theorem partition_pieces {ns : List ℕ} (h : (a :: ns).Pairwise (· < ·))
    (hb : ∀ n ∈ a :: ns, n < b) : Partition (pieces a ns b) a b := by
  induction ns generalizing a with
  | nil => exact ⟨rfl, hb a List.mem_cons_self, rfl⟩
  | cons n ns ih =>
    obtain ⟨hfirst, hrest⟩ := List.pairwise_cons.mp h
    exact ⟨rfl, hfirst n List.mem_cons_self, ih hrest (List.forall_mem_cons.mp hb).2⟩

theorem find_mem_pieces {ns : List ℕ} (h : (a :: ns).Pairwise (· < ·)) (hle : a ≤ k)
    (hlt : k < b) :
    (⟨(ns.reverse.find? (· ≤ k)).getD a, (ns.find? (k < ·)).getD b⟩ : Range) ∈ pieces a ns b ∧
      (⟨(ns.reverse.find? (· ≤ k)).getD a, (ns.find? (k < ·)).getD b⟩ : Range).Contains k := by
  induction ns generalizing a with
  | nil => exact ⟨List.mem_cons_self, hle, hlt⟩
  | cons n ns ih =>
    obtain ⟨hfirst, hrest⟩ := List.pairwise_cons.mp h
    rcases Nat.lt_or_ge k n with hn | hn
    · have hnone : (n :: ns).reverse.find? (· ≤ k) = none := by
        rw [List.find?_eq_none]
        intro x hx
        rw [List.mem_reverse] at hx
        obtain rfl | hx := List.mem_cons.mp hx
        · simpa using hn
        · have := (List.pairwise_cons.mp hrest).1 x hx
          simp only [decide_eq_true_eq]
          omega
      rw [hnone, List.find?_cons_of_pos (by simpa using hn)]
      exact ⟨List.mem_cons_self, hle, hn⟩
    · have hlast : ((n :: ns).reverse.find? (· ≤ k)).getD a =
          (ns.reverse.find? (· ≤ k)).getD n := by
        rw [List.reverse_cons, List.find?_append]
        cases ns.reverse.find? (· ≤ k) with
        | some x => rfl
        | none => simp [hn]
      rw [hlast, List.find?_cons_of_neg (by simpa using hn)]
      obtain ⟨hmem, hcontains⟩ := ih hrest hn
      exact ⟨List.mem_cons_of_mem _ hmem, hcontains⟩

end Utf8
