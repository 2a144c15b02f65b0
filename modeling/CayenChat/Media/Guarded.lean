import CayenChat.Media.Fetch

/-! # Previews do not reach the local network

The comparisons of the guard, bit by bit, are membership in the blocks the
documentation names, with one exception: the IPv6 block for benchmarking passes.
-/

namespace CayenChat.Media

open Digits

variable {ip : Ipv6Addr} {r : Range}

/-! ## Blocks, digit by digit -/

theorem Ipv4Addr.in_iff {ip : Ipv4Addr} (hb : r.base.length = 4) (hd : ∀ x ∈ r.base, x < 2 ^ 8)
    (hl : r.len ≤ 32) : ip.In r ↔ Leads 8 r.len ip.digits r.base := by
  refine agree_iff hb.symm (fun x hx => ?_) hd hl
  simp only [digits, List.mem_cons, List.not_mem_nil, or_false] at hx
  obtain rfl | rfl | rfl | rfl := hx <;> exact Fin.isLt _

theorem Ipv6Addr.digits_eq (ip : Ipv6Addr) :
    ip.digits = [(ip.segments 0).val, (ip.segments 1).val, (ip.segments 2).val,
      (ip.segments 3).val, (ip.segments 4).val, (ip.segments 5).val, (ip.segments 6).val,
      (ip.segments 7).val] := by
  simp [digits, List.ofFn_succ]

theorem Ipv6Addr.in_iff (hb : r.base.length = 8) (hd : ∀ x ∈ r.base, x < 2 ^ 16)
    (hl : r.len ≤ 128) : ip.In r ↔ Leads 16 r.len ip.digits r.base := by
  have hlen : ip.digits.length = 8 := List.length_ofFn
  have h : Agree (16 * ip.digits.length) r.len (value 16 ip.digits) (value 16 r.base) ↔ _ :=
    agree_iff (hlen.trans hb.symm) (fun x hx => ?_) hd (by rw [hlen]; exact hl)
  · rwa [hlen] at h
  · obtain ⟨i, rfl⟩ := (List.mem_ofFn' _ _).mp hx
    exact Fin.isLt _

theorem ranges4_formed : ∀ r ∈ ranges4,
    r.base.length = 4 ∧ (∀ x ∈ r.base, x < 2 ^ 8) ∧ r.len ≤ 32 := by decide

theorem ranges6_formed : ∀ r ∈ mapped6 :: nat64 :: sixToFour :: ranges6,
    r.base.length = 8 ∧ (∀ x ∈ r.base, x < 2 ^ 16) ∧ r.len ≤ 128 := by decide

theorem refused4_iff {ip : Ipv4Addr} :
    Refused4 ip ↔ ∃ r ∈ ranges4, Leads 8 r.len ip.digits r.base := by
  refine exists_congr fun r => and_congr_right fun hr => ?_
  obtain ⟨hb, hd, hl⟩ := ranges4_formed r hr
  exact Ipv4Addr.in_iff hb hd hl

theorem isPublicV4_iff {ip : Ipv4Addr} : isPublicV4 ip = true ↔ ¬ Refused4 ip := by
  have hshared : ip.b.val / 64 = 1 ↔ 64 ≤ ip.b.val ∧ ip.b.val < 128 := by omega
  have hprivate : ip.b.val / 16 = 1 ↔ 16 ≤ ip.b.val ∧ ip.b.val < 32 := by omega
  have hbench : ip.b.val / 2 = 9 ↔ 18 ≤ ip.b.val ∧ ip.b.val < 20 := by omega
  have hlast : (ip.a.val / 16 = 14 ∨ ip.a.val / 16 = 15) ↔ 224 ≤ ip.a.val := by
    have := ip.a.isLt
    omega
  rw [refused4_iff]
  simp only [ranges4, List.mem_cons, List.not_mem_nil, or_false, exists_eq_or_imp, exists_eq_left,
    Ipv4Addr.digits, Leads, Nat.reduceLeDiff, Nat.reduceSub, Nat.reducePow, Nat.reduceDiv,
    Nat.div_one, ↓reduceIte, le_refl, hshared, hprivate, hbench, hlast]
  simp only [isPublicV4, Bool.not_eq_true', ← Bool.not_eq_true, Bool.or_eq_true, Bool.and_eq_true,
    beq_iff_eq, decide_eq_true_eq, or_assoc, and_assoc]

/-! ## IPv6 -/

theorem masked_iff {x : ℕ} (h : x < 65536) : x &&& 0xe000 = 0x2000 ↔ x / 8192 = 1 := by
  have hlow : (x &&& 0xe000) % 2 ^ 13 = 0 := by rw [Nat.and_mod_two_pow]; exact Nat.and_zero _
  have hhigh : (x &&& 0xe000) / 2 ^ 13 = x / 8192 := by
    rw [Nat.and_div_two_pow]
    change x / 8192 &&& 2 ^ 3 - 1 = x / 8192
    rw [Nat.and_two_pow_sub_one_eq_mod]
    omega
  omega

variable (ip) in
theorem leads_iff (hr : r ∈ mapped6 :: nat64 :: sixToFour :: ranges6) :
    ip.In r ↔ Leads 16 r.len ip.digits r.base := by
  obtain ⟨hb, hd, hl⟩ := ranges6_formed r hr
  exact Ipv6Addr.in_iff hb hd hl

theorem isMapped_iff : ip.isMapped = true ↔ ip.In mapped6 ∨ ip.In nat64 := by
  rw [leads_iff ip (by simp), leads_iff ip (by simp)]
  simp [Ipv6Addr.isMapped, Ipv6Addr.digits_eq, mapped6, nat64, Leads, and_assoc]

theorem in_sixToFour_iff : ip.In sixToFour ↔ (ip.segments 0).val = 0x2002 := by
  rw [leads_iff ip (by simp), Ipv6Addr.digits_eq]
  simp [sixToFour, Leads]

theorem in_benchmarking6_iff : ip.In benchmarking6 ↔
    (ip.segments 0).val = 0x2001 ∧ (ip.segments 1).val = 2 ∧ (ip.segments 2).val = 0 := by
  rw [leads_iff ip (by simp [ranges6]), Ipv6Addr.digits_eq]
  simp [benchmarking6, Leads]

theorem isPublicV6_iff (hm : ip.isMapped = false) (hs : (ip.segments 0).val ≠ 0x2002) :
    isPublicV6 ip = true ↔ (ip.segments 0).val / 8192 = 1 ∧
      ((ip.segments 0).val = 0x2001 → (ip.segments 1).val ≠ 0 ∧
        ¬ (0x10 ≤ (ip.segments 1).val ∧ (ip.segments 1).val < 0x40) ∧
        (ip.segments 1).val ≠ 0xdb8) ∧ (ip.segments 0).val ≠ 0x3fff := by
  rw [isPublicV6, hm, if_neg Bool.false_ne_true, if_neg (by simpa using hs)]
  simp only [Ipv6Addr.digits_eq, List.take_succ_cons, List.take_zero, Bool.and_eq_true, beq_iff_eq,
    bne_iff_ne, Ne, List.cons.injEq, and_true, Bool.not_eq_true', Bool.and_eq_false_iff,
    beq_eq_false_iff_ne, decide_eq_false_iff_not, masked_iff (ip.segments 0).isLt]
  omega

theorem in_benchmarking6_of_global (hm : ip.isMapped = false)
    (hs : (ip.segments 0).val ≠ 0x2002) (hp : isPublicV6 ip = true) (hr : r ∈ ranges6)
    (hin : ip.In r) : ip.In benchmarking6 := by
  obtain ⟨hfirst, hset, hdoc⟩ := (isPublicV6_iff hm hs).mp hp
  rw [leads_iff ip (by simp [hr]), Ipv6Addr.digits_eq] at hin
  rw [in_benchmarking6_iff]
  simp only [ranges6, List.mem_cons, List.not_mem_nil, or_false] at hr
  obtain rfl | rfl | rfl | rfl | rfl | rfl | rfl | rfl | rfl | rfl | rfl | rfl | rfl | rfl := hr
  all_goals
    simp [Leads, benchmarking6, -Fin.val_eq_zero_iff] at hin
    omega

theorem isPublicV6_refused (hp : isPublicV6 ip = true) (hr : Refused6 ip) :
    ip.In benchmarking6 := by
  cases hm : ip.isMapped with
  | true =>
    rw [isPublicV6, if_pos hm, isPublicV4_iff] at hp
    have hin := isMapped_iff.mp hm
    rcases hr with ⟨-, h4⟩ | ⟨h6, -⟩ | ⟨hn, hn', -⟩
    · exact absurd h4 hp
    · rw [isMapped_iff] at hm
      rw [in_sixToFour_iff] at h6
      rw [leads_iff ip (by simp), leads_iff ip (by simp), Ipv6Addr.digits_eq] at hin
      simp [mapped6, nat64, Leads, h6] at hin
    · exact absurd hin (not_or.mpr ⟨hn, hn'⟩)
  | false =>
    have hnot : ¬ (ip.In mapped6 ∨ ip.In nat64) := fun h =>
      Bool.false_ne_true (hm.symm.trans (isMapped_iff.mpr h))
    by_cases hs : (ip.segments 0).val = 0x2002
    · have hin := in_sixToFour_iff.mpr hs
      rw [isPublicV6, hm, if_neg Bool.false_ne_true, if_pos (by simpa using hs),
        isPublicV4_iff] at hp
      rcases hr with ⟨h, -⟩ | ⟨-, h4⟩ | ⟨-, -, r, hr, hin⟩
      · exact absurd h hnot
      · exact absurd h4 hp
      · rw [leads_iff ip (by simp [hr]), Ipv6Addr.digits_eq] at hin
        simp only [ranges6, List.mem_cons, List.not_mem_nil, or_false] at hr
        obtain rfl | rfl | rfl | rfl | rfl | rfl | rfl | rfl | rfl | rfl | rfl | rfl | rfl | rfl := hr
        all_goals simp [Leads, benchmarking6, hs] at hin
    · rcases hr with ⟨h, -⟩ | ⟨h, -⟩ | ⟨-, -, r, hr, hin⟩
      · exact absurd h hnot
      · exact absurd (in_sixToFour_iff.mp h) hs
      · exact in_benchmarking6_of_global hm hs hp hr hin

theorem benchmarking6_passes (hb : ip.In benchmarking6) : isPublicV6 ip = true ∧ Refused6 ip := by
  obtain ⟨h0, h1, -⟩ := in_benchmarking6_iff.mp hb
  have hnot : ¬ (ip.In mapped6 ∨ ip.In nat64) := by
    rw [leads_iff ip (by simp), leads_iff ip (by simp), Ipv6Addr.digits_eq]
    simp [mapped6, nat64, Leads, h0]
  have hm : ip.isMapped = false := Bool.eq_false_iff.mpr fun h => hnot (isMapped_iff.mp h)
  constructor
  · apply (isPublicV6_iff hm (by omega)).mpr
    omega
  · exact .inr (.inr ⟨fun h => hnot (.inl h), fun h => hnot (.inr h), benchmarking6,
      by simp [ranges6], hb⟩)

theorem refused_of_public {ip : IpAddr} (hp : isPublicIp ip = true) (hr : Refused ip) :
    Benchmarks ip := by
  cases ip with
  | v4 ip => exact absurd hr (isPublicV4_iff.mp hp)
  | v6 ip => exact isPublicV6_refused hp hr

/-! ## Every request -/

def defaultPort (scheme : String) : Option ℕ :=
  if scheme = "https" then some 443 else if scheme = "http" then some 80 else none

def Url.requestPort (url : Url) : Option ℕ := url.port <|> defaultPort url.scheme

/-- A request that reaches nothing local, given the requests of the chain before it. -/
structure Request.Harmless (earlier : List Request) (r : Request) : Prop where
  scheme : r.url.scheme = "https" ∨
    r.url.scheme = "http" ∧ ∀ q ∈ earlier, q.url.scheme ≠ "https"
  username : r.url.username = ""
  password : r.url.password = none
  port : r.url.requestPort = defaultPort r.url.scheme
  addresses : ∀ ip ∈ r.addresses, ¬ Refused ip

def Harmless : List Request → List Request → Prop
  | _, [] => True
  | earlier, r :: later => r.Harmless earlier ∧ Harmless (earlier ++ [r]) later

def Response.Confirmable (r : Response) : Prop :=
  r.status = 200 ∧ startsWith "image/" r.declared = true ∧ ¬ "svg".toList <:+: r.declared.toList

/-- A load that stays within the rules and the limits. -/
structure Fetched.Guarded (limits : Limits) (f : Fetched) : Prop where
  requests : ∀ earlier r later, f.requests = earlier ++ r :: later → r.Harmless earlier
  count : f.requests.length ≤ limits.maxRedirects + 1
  bytes : ∀ bytes, f.result = .ok bytes → bytes.length ≤ limits.maxResponseBytes
  once : f.confirmed.length ≤ 1
  image : ∀ r ∈ f.confirmed, r.Confirmable

theorem Harmless.split {earlier requests before later : List Request} {r : Request}
    (h : Harmless earlier requests) (he : requests = before ++ r :: later) :
    r.Harmless (earlier ++ before) := by
  induction before generalizing earlier requests with
  | nil =>
    subst he
    rw [List.append_nil]
    exact h.1
  | cons q before ih =>
    subst he
    have := ih h.2 rfl
    rwa [List.append_assoc] at this

theorem allowedScheme_iff {url : Url} {previous : Option Url} :
    allowedScheme url previous = true ↔ url.scheme = "https" ∨
      url.scheme = "http" ∧ previous.any (·.scheme == "https") = false := by
  unfold allowedScheme
  by_cases hs : url.scheme = "https"
  · simp [hs]
  by_cases hh : url.scheme = "http"
  · simp [hh]
  · simp [hs, hh]

theorem port_of_hostOk {url : Url} (h : hostOk url {} = true) : url.port = none := by
  unfold hostOk at h
  simp only [Bool.false_and, Bool.false_or] at h
  split at h
  · simp only [Bool.and_eq_true, Option.isNone_iff_eq_none] at h
    exact h.1.1.1
  · exact Option.isNone_iff_eq_none.mp (Bool.and_eq_true_iff.mp h).1
  · exact Option.isNone_iff_eq_none.mp (Bool.and_eq_true_iff.mp h).1
  · cases h

theorem checkRequest_ok {url : Url} {previous : Option Url}
    (h : checkRequest url previous {} = .ok ()) :
    (url.scheme = "https" ∨ url.scheme = "http" ∧ previous.any (·.scheme == "https") = false) ∧
      url.username = "" ∧ url.password = none ∧ url.port = none := by
  unfold checkRequest at h
  split at h
  · cases h
  · rename_i hallowed
    split at h
    · rename_i hhost
      simp only [Bool.or_eq_true, Bool.not_eq_true', not_or, Bool.not_eq_false, bne_iff_ne,
        not_not, Option.not_isSome_iff_eq_none] at hallowed
      obtain ⟨⟨hscheme, huser⟩, hpass⟩ := hallowed
      exact ⟨allowedScheme_iff.mp hscheme, huser, hpass, port_of_hostOk hhost⟩
    · cases h

theorem length_readBody {max : ℕ} {turns : List Turn} {bytes result : List UInt8}
    (hb : bytes.length ≤ max) (h : readBody max turns bytes = .ok result) :
    result.length ≤ max := by
  induction turns generalizing bytes with
  | nil =>
    cases h
    exact hb
  | cons turn turns ih =>
    rw [readBody] at h
    split at h
    · cases h
    split at h
    · cases h
    split at h
    · cases h
    · cases h
    split at h
    · cases h
      exact hb
    split at h
    · cases h
    · refine ih ?_ h
      rw [List.length_append]
      omega

/-- What one hop may have done. -/
structure Got.Sound (limits : Limits) (url : Url) (offers : IpAddr → Prop) (got : Got) : Prop where
  request : ∀ r ∈ got.request, r.url = url ∧ ∀ ip ∈ r.addresses, offers ip
  redirect : ∀ next, got.step = .ok (.redirect next) → got.confirmed = none ∧ got.request.isSome
  bytes : ∀ bytes, got.step = .ok (.body bytes) → bytes.length ≤ limits.maxResponseBytes
  image : ∀ r ∈ got.confirmed, r.Confirmable

variable {join : Url → String → Option Url} {limits : Limits} {url : Url} {hop : Hop}

theorem sound_error {offers : IpAddr → Prop} {request : Option Request} (e : LoadError)
    (h : ∀ r ∈ request, r.url = url ∧ ∀ ip ∈ r.addresses, offers ip) :
    Got.Sound limits url offers ⟨request, none, .error e⟩ := by
  constructor
  · exact h
  · intro next hn
    cases hn
  · intro bytes hb
    cases hb
  · intro r hr
    cases hr

theorem take_sound {offers : IpAddr → Prop} {request : Option Request} (response : Response)
    (h : ∀ r ∈ request, r.url = url ∧ ∀ ip ∈ r.addresses, offers ip) (hs : request.isSome) :
    Got.Sound limits url offers
      ⟨request, (take join limits url response).1, (take join limits url response).2⟩ := by
  unfold take
  split
  · split
    · exact sound_error _ h
    split
    · exact sound_error _ h
    · refine ⟨h, fun _ _ => ⟨rfl, hs⟩, fun bytes hb => ?_, fun r hr => ?_⟩
      · cases hb
      · cases hr
  split
  · exact sound_error _ h
  split
  · exact sound_error _ h
  split
  · exact sound_error _ h
  rename_i hstatus himage _
  constructor
  · exact h
  · intro next hn
    cases hb : readBody limits.maxResponseBytes response.body [] <;> rw [hb] at hn <;> cases hn
  · intro bytes hn
    cases hb : readBody limits.maxResponseBytes response.body [] with
    | error e =>
      rw [hb] at hn
      cases hn
    | ok result =>
      rw [hb] at hn
      cases hn
      exact length_readBody (Nat.zero_le _) hb
  · rintro r ⟨⟩
    rw [Bool.not_eq_true, Bool.not_eq_false', Response.isImage, Bool.and_eq_true,
      Bool.not_eq_true', decide_eq_false_iff_not] at himage
    exact ⟨not_not.mp hstatus, himage⟩

def Hop.Offers (hop : Hop) (ip : IpAddr) : Prop :=
  isPublicIp ip = true ∧ ∃ ips, hop.resolved = some ips ∧ ip ∈ ips

theorem resolve_offers {addresses : List IpAddr} (h : resolve {} hop = some addresses) :
    ∀ r ∈ some (Request.mk url addresses), r.url = url ∧ ∀ ip ∈ r.addresses, hop.Offers ip := by
  rintro r ⟨⟩
  refine ⟨rfl, fun ip hip => ?_⟩
  obtain ⟨ips, hips, rfl⟩ := Option.map_eq_some_iff.mp h
  obtain ⟨hmem, hpermits⟩ := List.mem_filter.mp hip
  rw [permits, Bool.false_and, Bool.or_false] at hpermits
  exact ⟨hpermits, ips, hips, hmem⟩

theorem get_sound (hop : Hop) : (get join {} limits url hop).Sound limits url hop.Offers := by
  have hnone : ∀ r ∈ some (Request.mk url []), r.url = url ∧ ∀ ip ∈ r.addresses, hop.Offers ip := by
    rintro r ⟨⟩
    exact ⟨rfl, fun _ h => by cases h⟩
  unfold get
  split
  · exact sound_error _ fun _ h => by cases h
  split
  · exact sound_error _ hnone
  · exact sound_error _ hnone
  · rename_i addresses _ hr
    split
    · exact sound_error _ (resolve_offers hr)
    · exact sound_error _ (resolve_offers hr)
    · exact take_sound _ (resolve_offers hr) rfl

/-! ## The chain -/

/-- The hops that are left, behind the requests made so far. -/
structure Fetched.Sound (limits : Limits) (left : ℕ) (earlier : List Request) (f : Fetched) :
    Prop where
  requests : Harmless earlier f.requests
  count : f.requests.length ≤ left
  bytes : ∀ bytes, f.result = .ok bytes → bytes.length ≤ limits.maxResponseBytes
  once : f.confirmed.length ≤ 1
  image : ∀ r ∈ f.confirmed, r.Confirmable

theorem harmless_of_check {earlier : List Request} {previous : Option Url} {r : Request}
    (hc : checkRequest r.url previous {} = .ok ())
    (hsecure : ∀ q ∈ earlier, q.url.scheme = "https" → previous.any (·.scheme == "https") = true)
    (ha : ∀ ip ∈ r.addresses, ¬ Refused ip) : r.Harmless earlier := by
  obtain ⟨hscheme, huser, hpass, hport⟩ := checkRequest_ok hc
  refine ⟨hscheme.imp_right fun h => ⟨h.1, fun q hq hs => ?_⟩, huser, hpass, ?_, ha⟩
  · exact Bool.false_ne_true (h.2.symm.trans (hsecure q hq hs))
  · rw [Url.requestPort, hport]
    rfl

theorem sound_stop {left : ℕ} {earlier : List Request} (e : LoadError) :
    Fetched.Sound limits left earlier { result := .error e } := by
  constructor
  · trivial
  · exact Nat.zero_le _
  · rintro bytes ⟨⟩
  · exact Nat.zero_le _
  · rintro r ⟨⟩

theorem sound_last {left : ℕ} {earlier : List Request} {request : Option Request}
    {confirmed : Option Response} {result : Except LoadError (List UInt8)}
    (hr : ∀ r ∈ request, r.Harmless earlier) (hc : ∀ r ∈ confirmed, r.Confirmable)
    (hb : ∀ bytes, result = .ok bytes → bytes.length ≤ limits.maxResponseBytes) :
    Fetched.Sound limits (left + 1) earlier ⟨request.toList, confirmed.toList, result⟩ := by
  constructor
  · cases request with
    | none => trivial
    | some r => exact ⟨hr r rfl, trivial⟩
  · cases request <;> simp
  · exact hb
  · cases confirmed <;> simp
  · intro r h
    exact hc r (Option.mem_toList.mp h)

theorem sound_redirected {left : ℕ} {earlier : List Request} {r : Request} {rest : Fetched}
    (hr : r.Harmless earlier) (h : rest.Sound limits left (earlier ++ [r])) :
    Fetched.Sound limits (left + 1) earlier { rest with requests := r :: rest.requests } where
  requests := ⟨hr, h.requests⟩
  count := Nat.succ_le_succ h.count
  bytes := h.bytes
  once := h.once
  image := h.image

variable {hops : ℕ → Hop}

theorem fetchFrom_sound (hclean : ∀ n ip, (hops n).Offers ip → ¬ Refused ip) {left n : ℕ}
    {url : Url} {previous : Option Url} {earlier : List Request}
    (hsecure : ∀ q ∈ earlier, q.url.scheme = "https" → previous.any (·.scheme == "https") = true) :
    (fetchFrom join {} limits hops left n url previous).Sound limits left earlier := by
  induction left generalizing n url previous earlier with
  | zero => exact sound_stop _
  | succ left ih =>
    rw [fetchFrom]
    split
    · exact sound_stop _
    split
    · exact sound_stop _
    rename_i hc
    obtain ⟨hrequest, hredirect, hbytes, himage⟩ :
        (get join {} limits url (hops n)).Sound limits url (hops n).Offers := get_sound (hops n)
    have hharmless : ∀ r ∈ (get join {} limits url (hops n)).request, r.Harmless earlier := by
      intro r hr
      obtain ⟨rfl, ha⟩ := hrequest r hr
      exact harmless_of_check hc hsecure fun ip hip => hclean n ip (ha ip hip)
    dsimp only
    split
    · exact sound_last hharmless himage (by rintro bytes ⟨⟩)
    · rename_i bytes hstep
      refine sound_last hharmless himage ?_
      rintro _ ⟨⟩
      exact hbytes bytes hstep
    · rename_i next hstep
      obtain ⟨hnone, hsome⟩ := hredirect next hstep
      obtain ⟨r, hr⟩ := Option.isSome_iff_exists.mp hsome
      have hhere := hharmless r hr
      rw [hnone, hr]
      refine sound_redirected hhere (ih fun q hq hs => ?_)
      rw [← (hrequest r hr).1]
      change (r.url.scheme == "https") = true
      rw [beq_iff_eq]
      rcases List.mem_append.mp hq with hq | hq
      · exact hhere.scheme.resolve_right fun h => h.2 q hq hs
      · rwa [List.mem_singleton.mp hq] at hs

def hopTo (ip : IpAddr) : Hop := { resolved := some [ip], response := .ok { status := 404 } }

def exampleLink : Url := { scheme := "https", host := some (.domain "example.com"), path := "/a.png" }

theorem requests_hopTo (join : Url → String → Option Url) (limits : Limits) {ip : IpAddr}
    (hp : isPublicIp ip = true) :
    (fetchConfirmed join {} limits exampleLink fun _ => hopTo ip).requests =
      [⟨exampleLink, [ip]⟩] := by
  have hc : checkRequest exampleLink none {} = .ok () := by decide
  have hr : resolve {} (hopTo ip) = some [ip] := by
    simp [resolve, hopTo, permits, hp]
  have hg : get join {} limits exampleLink (hopTo ip) =
      { request := some ⟨exampleLink, [ip]⟩, step := .error (.status 404) } := by
    have hexpired : ¬ (hopTo ip).expired = true := Bool.false_ne_true
    rw [get, if_neg hexpired, hr]
    rfl
  have hcancelled : ¬ (hopTo ip).cancelled = true := Bool.false_ne_true
  rw [fetchConfirmed, fetchFrom, if_neg hcancelled, hc]
  dsimp only
  rw [hg]
  rfl

/-- Previews stay within the rules whatever servers and resolvers answer, exactly when no resolver
answers an address of the IPv6 block for benchmarking. -/
theorem previews_stay_public (answers : IpAddr → Prop) :
    (∀ (join : Url → String → Option Url) (limits : Limits) (link : Url) (hops : ℕ → Hop),
      (∀ n ips, (hops n).resolved = some ips → ∀ ip ∈ ips, answers ip) →
      (fetchConfirmed join {} limits link hops).Guarded limits) ↔
    ∀ ip, answers ip → ¬ Benchmarks ip := by
  constructor
  · intro h ip ha hb
    cases ip with
    | v4 ip => exact hb
    | v6 ip =>
      obtain ⟨hp, hrefused⟩ := benchmarking6_passes hb
      have hguarded := h (fun _ _ => none) {} exampleLink (fun _ => hopTo (.v6 ip)) (by
        rintro n _ ⟨⟩ ip' hip
        rwa [List.mem_singleton.mp hip])
      have hharmless := hguarded.requests [] _ [] (requests_hopTo _ _ hp)
      exact hharmless.addresses _ (List.mem_singleton_self _) hrefused
  · intro h join limits link hops ha
    have hclean : ∀ n ip, (hops n).Offers ip → ¬ Refused ip := by
      rintro n ip ⟨hp, ips, hips, hip⟩ hr
      exact h ip (ha n ips hips ip hip) (refused_of_public hp hr)
    have hsound : (fetchConfirmed join {} limits link hops).Sound limits (limits.maxRedirects + 1) [] :=
      fetchFrom_sound hclean fun q hq => by cases hq
    exact ⟨fun earlier r later he => hsound.requests.split he, hsound.count, hsound.bytes,
      hsound.once, hsound.image⟩

/-- The link `https://[2001:2::1]/a.png`, which is the IPv6 benchmarking block, is fetched. -/
theorem previews_reach_benchmarking :
    let ip : Ipv6Addr := ⟨![0x2001, 2, 0, 0, 0, 0, 0, 1]⟩
    let link : Url := { scheme := "https", host := some (.ipv6 ip), path := "/a.png" }
    ¬ (fetchConfirmed (fun _ _ => none) {} {} link fun _ => hopTo (.v6 ip)).Guarded {} := by
  intro ip link h
  have hb : ip.In benchmarking6 := in_benchmarking6_iff.mpr (by decide)
  have hr : (fetchConfirmed (fun _ _ => none) {} {} link fun _ => hopTo (.v6 ip)).requests =
      [⟨link, [.v6 ip]⟩] := by decide +kernel
  exact (h.requests [] _ [] hr).addresses _ (List.mem_singleton_self _) (benchmarking6_passes hb).2

end CayenChat.Media
