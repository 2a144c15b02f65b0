import CayenChat.Sasl.Authentication

/-! # Framing of AUTHENTICATE messages

A payload cut into lines is put together again from them: every line but the
last asks for more, and the last one gives the payload and leaves nothing for
the next message. The buffer between them is bounded.
-/

namespace CayenChat

open Machine

/-- What the base64 of a payload is documented to be: padded ASCII that decodes to the payload. -/
structure Crypto.Frames (c : Crypto) (payload : List UInt8) : Prop where
  decodes : c.decode (c.encode payload) = some payload
  padded : (c.encode payload).toList.length % 4 = 0
  ascii : ∀ ch ∈ (c.encode payload).toList, ch.toNat ≤ 0x7F

namespace SaslHandshake

/-- The lines received one by one, with what each of them gives. -/
def receiveAll (c : Crypto) (s : SaslHandshake) :
    List String → Except String (SaslHandshake × List (Option (List UInt8)))
  | [] => .ok (s, [])
  | line :: lines => do
    let (s, payload) ← s.receive c line
    let (s, payloads) ← s.receiveAll c lines
    return (s, payload :: payloads)

/-- The lines of a text that is cut every `saslChunk` characters. -/
def framed (fuel : ℕ) (text : List Char) : List String :=
  (chunks saslChunk fuel text).map String.ofList ++
    if text.length % saslChunk = 0 then ["+"] else []

section Receiving

variable {c : Crypto} {s s' : SaslHandshake} {fuel : ℕ} {text seen : List Char}
  {payload : List UInt8} {line : String} {lines : List String}
  {payloads : List (Option (List UInt8))}

theorem chunks_nil (n : ℕ) : chunks n fuel [] = [] := by
  cases fuel <;> rfl

theorem chunks_cons (n : ℕ) (ht : text ≠ []) :
    chunks n (fuel + 1) text = text.take n :: chunks n fuel (text.drop n) := by
  rw [chunks, if_neg ht]

theorem framed_of_full (h : saslChunk ≤ text.length) :
    framed (fuel + 1) text = String.ofList (text.take saslChunk) ::
      framed fuel (text.drop saslChunk) := by
  have hne : text ≠ [] := by
    rintro rfl
    exact absurd h (by decide)
  have hmod : text.length % saslChunk = (text.drop saslChunk).length % saslChunk := by
    rw [List.length_drop]
    conv_lhs => rw [← Nat.sub_add_cancel h, Nat.add_mod_right]
  rw [framed, chunks_cons _ hne, List.map_cons, List.cons_append, hmod, framed]

theorem framed_of_short (h : text.length < saslChunk) (hne : text ≠ []) :
    framed (fuel + 1) text = [String.ofList text] := by
  have hpos := List.length_pos_iff.mpr hne
  rw [framed, chunks_cons _ hne, List.take_of_length_le h.le, List.drop_of_length_le h.le,
    chunks_nil, Nat.mod_eq_of_lt h, if_neg hpos.ne', List.append_nil]
  rfl

theorem framed_nil : framed fuel [] = ["+"] := by
  rw [framed, chunks_nil]
  rfl

theorem authenticateLines_eq (c : Crypto) (payload : List UInt8) :
    authenticateLines c payload =
      (framed (c.encode payload).toList.length (c.encode payload).toList).map .authenticate := by
  rw [framed, List.map_append, List.map_map, authenticateLines]
  congr 1
  split_ifs <;> rfl

theorem framed_length (hf : text.length ≤ fuel) (h : line ∈ framed fuel text) :
    1 ≤ line.toList.length ∧ line.toList.length ≤ saslChunk := by
  induction fuel generalizing text with
  | zero =>
    rw [List.length_eq_zero_iff.mp (Nat.le_zero.mp hf), framed_nil, List.mem_singleton] at h
    subst h
    decide
  | succ fuel ih =>
    by_cases hne : text = []
    · rw [hne, framed_nil, List.mem_singleton] at h
      subst h
      decide
    have hpos := List.length_pos_iff.mpr hne
    rcases Nat.lt_or_ge text.length saslChunk with hlt | hge
    · rw [framed_of_short hlt hne, List.mem_singleton] at h
      rw [h, String.toList_ofList]
      exact ⟨hpos, hlt.le⟩
    · rw [framed_of_full hge] at h
      rcases List.mem_cons.mp h with rfl | h
      · rw [String.toList_ofList, List.length_take, Nat.min_eq_left hge]
        decide
      · refine ih ?_ h
        rw [List.length_drop]
        have : 0 < saslChunk := by decide
        omega

theorem framed_ne_nil (hf : text.length ≤ fuel) : framed fuel text ≠ [] := by
  by_cases hne : text = []
  · rw [hne, framed_nil]
    simp
  · have hpos := List.length_pos_iff.mpr hne
    obtain ⟨fuel, rfl⟩ := Nat.exists_eq_add_of_lt (hpos.trans_le hf)
    rw [framed, show 0 + fuel + 1 = fuel + 1 by omega, chunks_cons _ hne]
    simp

theorem finish_eq (hd : c.decode s.incoming = some payload) :
    s.finishIncoming c = .ok ({ s with incoming := "" }, payload) := by
  rw [finishIncoming, hd]

variable (hp : s.phase ≠ .idle ∧ s.phase ≠ .complete)

include hp

theorem receive_plus (hd : c.decode s.incoming = some payload) :
    s.receive c "+" = .ok ({ s with incoming := "" }, some payload) := by
  rw [receive, if_neg (by tauto), if_pos rfl, finish_eq hd]
  rfl

theorem receive_full (hs : s.incoming = String.ofList seen)
    (ha : ∀ ch ∈ seen ++ text, ch.toNat ≤ 0x7F) (hl : text.length = saslChunk)
    (hm : (seen ++ text).length ≤ maxIncoming) :
    s.receive c (String.ofList text) =
      .ok ({ s with incoming := String.ofList (seen ++ text) }, none) := by
  have hne : String.ofList text ≠ "+" := by
    intro h
    rw [← String.toList_inj, String.toList_ofList] at h
    rw [h] at hl
    exact absurd hl (by decide)
  have hseen := byteLen_of_ascii fun ch hc => ha ch (List.mem_append_left _ hc)
  have htext := byteLen_of_ascii fun ch hc => ha ch (List.mem_append_right _ hc)
  rw [List.length_append] at hm
  rw [receive, if_neg (by tauto), if_neg hne, if_neg (by rw [hs, hseen, htext]; omega)]
  dsimp only
  rw [if_pos (htext.trans hl), hs, String.ofList_append]

theorem receive_last (hs : s.incoming = String.ofList seen)
    (ha : ∀ ch ∈ seen ++ text, ch.toNat ≤ 0x7F) (hl : text.length < saslChunk)
    (hone : text.length ≠ 1) (hm : (seen ++ text).length ≤ maxIncoming)
    (hd : c.decode (String.ofList (seen ++ text)) = some payload) :
    s.receive c (String.ofList text) = .ok ({ s with incoming := "" }, some payload) := by
  have hne : String.ofList text ≠ "+" := by
    intro h
    rw [← String.toList_inj, String.toList_ofList] at h
    rw [h] at hone
    exact hone rfl
  have hseen := byteLen_of_ascii fun ch hc => ha ch (List.mem_append_left _ hc)
  have htext := byteLen_of_ascii fun ch hc => ha ch (List.mem_append_right _ hc)
  rw [List.length_append] at hm
  rw [receive, if_neg (by tauto), if_neg hne, if_neg (by rw [hs, hseen, htext]; omega)]
  dsimp only
  rw [if_neg (by rw [htext]; omega),
    finish_eq (s := { s with incoming := s.incoming ++ String.ofList text })
      (by rw [hs, ← String.ofList_append]; exact hd)]
  rfl

/-- The lines of the rest of a message: all but the last ask for more, and the last one gives the
payload. -/
theorem receiveAll_framed (hs : s.incoming = String.ofList seen)
    (ha : ∀ ch ∈ seen ++ text, ch.toNat ≤ 0x7F) (hf : text.length ≤ fuel)
    (hmod : text.length % 4 = 0) (hm : (seen ++ text).length ≤ maxIncoming)
    (hd : c.decode (String.ofList (seen ++ text)) = some payload) :
    s.receiveAll c (framed fuel text) = .ok ({ s with incoming := "" },
      List.replicate ((framed fuel text).length - 1) none ++ [some payload]) := by
  induction fuel generalizing s seen text with
  | zero =>
    obtain rfl := List.length_eq_zero_iff.mp (Nat.le_zero.mp hf)
    rw [List.append_nil, ← hs] at hd
    rw [framed_nil, receiveAll, receive_plus hp hd]
    rfl
  | succ fuel ih =>
    by_cases hne : text = []
    · subst hne
      rw [List.append_nil, ← hs] at hd
      rw [framed_nil, receiveAll, receive_plus hp hd]
      rfl
    rcases Nat.lt_or_ge text.length saslChunk with hlt | hge
    · have hone : text.length ≠ 1 := by omega
      rw [framed_of_short hlt hne, receiveAll, receive_last hp hs ha hlt hone hm hd]
      rfl
    · have hsplit : seen ++ text = seen ++ text.take saslChunk ++ text.drop saslChunk := by
        rw [List.append_assoc, List.take_append_drop]
      have hle : (seen ++ text.take saslChunk).length ≤ (seen ++ text).length := by
        rw [hsplit]
        exact List.length_append.ge.trans' (Nat.le_add_right ..)
      have hchunk : saslChunk = 4 * 100 := rfl
      have hdrop : (text.drop saslChunk).length = text.length - saslChunk := List.length_drop ..
      rw [hsplit] at ha hm hd
      have hrest : ({ s with
            incoming := String.ofList (seen ++ text.take saslChunk) } : SaslHandshake).receiveAll c
          (framed fuel (text.drop saslChunk)) = _ :=
        ih hp rfl ha (by omega) (by omega) hm hd
      have hpos : 0 < (framed fuel (text.drop saslChunk)).length :=
        List.length_pos_iff.mpr (framed_ne_nil (by omega))
      rw [framed_of_full hge, receiveAll,
        receive_full hp hs (fun ch hc => ha ch (List.mem_append_left _ hc))
          (by rw [List.length_take, Nat.min_eq_left hge]) (hle.trans (hsplit ▸ hm))]
      change (do
        let r ← SaslHandshake.receiveAll c _ _
        pure (r.1, none :: r.2)) = _
      rw [hrest]
      change Except.ok ({ s with incoming := "" }, none :: _) = _
      rw [List.length_cons, Nat.add_sub_cancel, ← List.cons_append, ← List.replicate_succ,
        Nat.sub_add_cancel hpos]

end Receiving

/-! ## The buffer -/

section Buffer

variable {c : Crypto} {s s' : SaslHandshake} {out : Out}

theorem finishIncoming_incoming {payload : List UInt8}
    (h : s.finishIncoming c = .ok (s', payload)) : s'.incoming = "" := by
  unfold finishIncoming at h
  split at h <;> cases h
  rfl

theorem receive_buffered {chunk : String} {payload : Option (List UInt8)}
    (h : s.receive c chunk = .ok (s', payload)) (hs : byteLen s.incoming ≤ maxIncoming) :
    byteLen s'.incoming ≤ maxIncoming := by
  have finish (s₀ : SaslHandshake)
      (h : (s₀.finishIncoming c).map (fun r => (r.1, some r.2)) = .ok (s', payload)) :
      byteLen s'.incoming ≤ maxIncoming := by
    cases hf : s₀.finishIncoming c with
    | error e => rw [hf] at h; cases h
    | ok r =>
      rw [hf] at h
      cases h
      rw [finishIncoming_incoming hf]
      exact Nat.zero_le _
  unfold receive at h
  split at h
  · cases h
    exact hs
  · split at h
    · exact finish s h
    · split at h
      · cases h
      · rename_i hfit
        push Not at hfit
        dsimp only at h
        split at h
        · cases h
          rw [byteLen_append]
          exact hfit.2
        · exact finish _ h

theorem handle_incoming {payload : List UInt8} (h : s.handle c payload = .ok (s', out)) :
    s'.incoming = s.incoming := by
  unfold handle at h
  split at h
  · split at h
    · cases h
    · dsimp only at h
      split at h
      · cases h; rfl
      · split at h <;> cases h <;> rfl
  · split at h
    · cases h
    · dsimp only at h
      split at h <;> cases h
      rfl
  · split at h
    · cases h
    · split at h <;> cases h
      rfl
  · split at h
    · cases h
    · split at h <;> cases h
      rfl
  · cases h

theorem observe_buffered {m : IrcMessage} (h : s.observe c m = .ok (s', out))
    (hs : byteLen s.incoming ≤ maxIncoming) : byteLen s'.incoming ≤ maxIncoming := by
  unfold observe at h
  split at h
  · unfold observeChunk at h
    split at h
    · cases h
    · rename_i hr
      cases h
      exact receive_buffered hr hs
    · rename_i hr
      split at h
      · rename_i hh
        cases h
        rw [handle_incoming hh]
        exact receive_buffered hr hs
      · split at h <;> cases h
  · split at h
    · split at h <;> cases h <;> exact hs
    · split at h
      · cases h
        exact hs
      · split at h <;> cases h
        exact hs
  · cases h
    exact hs

theorem derived_incoming {d : Scram.Derived} (h : s.derived c d = .ok (s', out)) :
    s'.incoming = s.incoming := by
  unfold derived at h
  split at h
  · cases h
  · split at h
    · cases h
    · dsimp only at h
      cases h
      rfl

end Buffer

end SaslHandshake

theorem Session.step_buffered {c : Crypto} {s : Session} (i : Session.Input)
    (hs : byteLen s.handshake.incoming ≤ maxIncoming) :
    byteLen (s.step c i).handshake.incoming ≤ maxIncoming := by
  have proceed (before : List Exchanged) (r : Except Refusal (SaslHandshake × Out))
      (hr : ∀ h out, r = .ok (h, out) → byteLen h.incoming ≤ maxIncoming) :
      byteLen (s.proceed before r).handshake.incoming ≤ maxIncoming := by
    cases r with
    | error e => exact hs
    | ok r => exact hr r.1 r.2 rfl
  unfold Session.step
  split
  · exact hs
  · cases i with
    | line m => exact proceed _ _ fun h out hr => SaslHandshake.observe_buffered hr hs
    | result n =>
      dsimp only
      split
      · refine proceed _ _ fun h out hr => ?_
        rw [SaslHandshake.derived_incoming hr]
        exact hs
      · exact hs

theorem Session.begun_buffered (c : Crypto) (random : Option (List UInt8))
    (credentials : SaslCredentials) :
    byteLen (Session.begun c random credentials).handshake.incoming ≤ maxIncoming := by
  unfold Session.begun
  split
  · rename_i h
    obtain ⟨scram, rfl, -⟩ := SaslHandshake.start_eq h
    exact Nat.zero_le _
  · exact Nat.zero_le _

/-- A payload is put together again from the lines it is framed in, which leave the handshake as it
was, and no server makes it buffer more than the limit. -/
theorem framing_round_trips (c : Crypto) (s : SaslHandshake) (payload : List UInt8)
    (hp : s.phase ≠ .idle ∧ s.phase ≠ .complete) (hs : s.incoming = "")
    (hc : c.Frames payload) (hl : (c.encode payload).toList.length ≤ maxIncoming) :
    (∃ lines : List String,
      SaslHandshake.authenticateLines c payload = lines.map .authenticate ∧ lines ≠ [] ∧
      (∀ line ∈ lines, 1 ≤ line.toList.length ∧ line.toList.length ≤ saslChunk) ∧
      s.receiveAll c lines =
        .ok (s, List.replicate (lines.length - 1) none ++ [some payload])) ∧
    ∀ random credentials (is : List Session.Input),
      let buffer := (exec (Session.step c) (Session.begun c random credentials) is).handshake.incoming
      byteLen buffer ≤ maxIncoming ∧ buffer.toList.length ≤ maxIncoming := by
  have hof : String.ofList (c.encode payload).toList = c.encode payload := String.ofList_toList
  have hsame : { s with incoming := "" } = s := by rw [← hs]
  have hd : c.decode (String.ofList ([] ++ (c.encode payload).toList)) = some payload := by
    rw [List.nil_append, hof]
    exact hc.decodes
  have hall := SaslHandshake.receiveAll_framed hp hs hc.ascii le_rfl hc.padded hl hd
  rw [hsame] at hall
  refine ⟨⟨_, SaslHandshake.authenticateLines_eq c payload, SaslHandshake.framed_ne_nil le_rfl,
    fun line => SaslHandshake.framed_length le_rfl, hall⟩, fun random credentials is => ?_⟩
  have hb : byteLen (exec (Session.step c) (Session.begun c random credentials)
      is).handshake.incoming ≤ maxIncoming :=
    exec_invariant' (fun s : Session => byteLen s.handshake.incoming ≤ maxIncoming)
      (fun s i => Session.step_buffered i) (Session.begun_buffered c random credentials)
  exact ⟨hb, (length_le_byteLen _).trans hb⟩

/-- The challenge of a SCRAM exchange on one line. -/
theorem framing_round_trips_challenge :
    let payload := utf8Bytes "r=3rfcNHYJY1ZVvWVs7j,s=QSXCR+Q6sek8bf92,i=4096"
    let s : SaslHandshake := { mechanism := .scramSha1, username := "", password := "",
                               phase := .scramFirst }
    exampleCrypto.Frames payload ∧
      (exampleCrypto.encode payload).toList.length ≤ maxIncoming ∧
      ∃ lines : List String,
        SaslHandshake.authenticateLines exampleCrypto payload = lines.map .authenticate ∧
        s.receiveAll exampleCrypto lines =
          .ok (s, List.replicate (lines.length - 1) none ++ [some payload]) := by
  intro payload s
  have ha : isAscii (exampleCrypto.encode payload) = true := by decide +kernel
  have hc : exampleCrypto.Frames payload := ⟨by decide +kernel, by decide +kernel, fun ch h =>
    of_decide_eq_true (List.all_eq_true.mp ha ch h)⟩
  have hl : (exampleCrypto.encode payload).toList.length ≤ maxIncoming := by decide +kernel
  obtain ⟨lines, hlines, -, -, hall⟩ :=
    (framing_round_trips exampleCrypto s payload ⟨by decide, by decide⟩ rfl hc hl).1
  exact ⟨hc, hl, lines, hlines, hall⟩

end CayenChat
