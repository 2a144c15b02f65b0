import CayenChat.Lib.Frames

/-! # Metadata in a PNG file

The chunks of a PNG file that are left out before it is decoded, and what is
charged for the copy. Arithmetic that overflows and cuts out of range fail.
-/

namespace CayenChat.Media

open Frames

/-- The bytes of a slice, whose length is at most the largest signed size. -/
structure Slice where
  bytes : List UInt8
  short : bytes.length < 2 ^ 63

def checkedAdd (a b : ℕ) : Option ℕ := if a + b < 2 ^ 64 then some (a + b) else none

def bytesAt (bytes : List UInt8) (start stop : ℕ) : Option (List UInt8) :=
  if start ≤ stop ∧ stop ≤ bytes.length then some ((bytes.drop start).take (stop - start)) else none

def pngSignature : List UInt8 := [0x89, 0x50, 0x4E, 0x47, 0x0D, 0x0A, 0x1A, 0x0A]

def chunkName (name : String) : List UInt8 := name.toList.map fun c => UInt8.ofNat c.toNat

def isPngMetadata (kind : List UInt8) : Bool :=
  [chunkName "iCCP", chunkName "tEXt", chunkName "zTXt", chunkName "iTXt"].contains kind

def bigEndian (bytes : List UInt8) : ℕ := bytes.foldl (fun n b => n * 256 + b.toNat) 0

/-- The chunks from an offset on: whether there is metadata, and the bytes of eXIf. -/
def scanPngChunksFrom (bytes : List UInt8) : ℕ → ℕ → Bool → ℕ → Option (Bool × ℕ)
  | 0, _, _, _ => none
  | fuel + 1, offset, hasMetadata, exifBytes =>
    if offset < bytes.length then
      match checkedAdd offset 8 with
      | none => some (hasMetadata, exifBytes)
      | some headerEnd =>
        match bytesAt bytes offset headerEnd with
        | none => some (hasMetadata, exifBytes)
        | some header => do
          let length := bigEndian (← bytesAt header 0 4)
          match (checkedAdd headerEnd length).bind (checkedAdd · 4) with
          | none => some (hasMetadata, exifBytes)
          | some chunkEnd =>
            if bytes.length < chunkEnd then some (hasMetadata, exifBytes)
            else
              let kind ← bytesAt header 4 8
              if isPngMetadata kind then
                scanPngChunksFrom bytes fuel chunkEnd true exifBytes
              else if kind = chunkName "eXIf" then do
                scanPngChunksFrom bytes fuel chunkEnd hasMetadata (← checkedAdd exifBytes length)
              else scanPngChunksFrom bytes fuel chunkEnd hasMetadata exifBytes
    else some (hasMetadata, exifBytes)

def scanPngChunks (bytes : List UInt8) : Option (Bool × ℕ) :=
  if pngSignature <+: bytes then
    scanPngChunksFrom bytes (bytes.length + 1) pngSignature.length false 0
  else some (false, 0)

def finishPngFilter (bytes : List UInt8) (offset : ℕ) (output : Option (List UInt8)) :
    Option (List UInt8) :=
  match output with
  | none => some bytes
  | some filtered => do return filtered ++ (← bytesAt bytes offset bytes.length)

/-- Leaves out metadata from an offset on; there is output once something was left out. -/
def stripPngMetadataFrom (bytes : List UInt8) : ℕ → ℕ → Option (List UInt8) → Option (List UInt8)
  | 0, _, _ => none
  | fuel + 1, offset, output =>
    if offset < bytes.length then
      match checkedAdd offset 8 with
      | none => finishPngFilter bytes offset output
      | some headerEnd =>
        match bytesAt bytes offset headerEnd with
        | none => finishPngFilter bytes offset output
        | some header => do
          let length := bigEndian (← bytesAt header 0 4)
          match (checkedAdd headerEnd length).bind (checkedAdd · 4) with
          | none => finishPngFilter bytes offset output
          | some chunkEnd =>
            if bytes.length < chunkEnd then finishPngFilter bytes offset output
            else
              let kind ← bytesAt header 4 8
              match output with
              | none =>
                if isPngMetadata kind then do
                  stripPngMetadataFrom bytes fuel chunkEnd (some (← bytesAt bytes 0 offset))
                else stripPngMetadataFrom bytes fuel chunkEnd none
              | some filtered =>
                if isPngMetadata kind then
                  stripPngMetadataFrom bytes fuel chunkEnd (some filtered)
                else do
                  stripPngMetadataFrom bytes fuel chunkEnd
                    (some (filtered ++ (← bytesAt bytes offset chunkEnd)))
    else some (output.getD bytes)

def stripPngMetadata (bytes : List UInt8) : Option (List UInt8) :=
  if pngSignature <+: bytes then
    stripPngMetadataFrom bytes (bytes.length + 1) pngSignature.length none
  else some bytes

def maxCharge : ℕ := 2 ^ 64 - 1

/-- What is charged before a file is decoded: the copy, if one is made, and eXIf twice. -/
def pngMetadataCopyBytes (bytes : List UInt8) (png : Bool) : Option ℕ :=
  if !png then some 0
  else do
    let (hasMetadata, exifBytes) ← scanPngChunks bytes
    let copy := if hasMetadata then bytes.length else 0
    return min maxCharge (copy + min maxCharge (exifBytes * 2))

/-! ## Chunks -/

/-- A well-framed chunk. -/
@[ext] structure Chunk where
  length : List UInt8
  kind : List UInt8
  data : List UInt8
  crc : List UInt8
  length_length : length.length = 4
  kind_length : kind.length = 4
  data_length : data.length = bigEndian length
  crc_length : crc.length = 4

namespace Chunk

def bytes (c : Chunk) : List UInt8 := c.length ++ (c.kind ++ (c.data ++ c.crc))

theorem length_bytes (c : Chunk) : c.bytes.length = 12 + c.data.length := by
  simp only [bytes, List.length_append, c.length_length, c.kind_length, c.crc_length]
  omega

theorem prefixFree : PrefixFree bytes where
  eq_of_append := by
    intro a b s t h
    simp only [bytes, List.append_assoc] at h
    obtain ⟨hlength, h⟩ := List.append_inj h (a.length_length.trans b.length_length.symm)
    obtain ⟨hkind, h⟩ := List.append_inj h (a.kind_length.trans b.kind_length.symm)
    have hshort : a.data.length = b.data.length := by
      rw [a.data_length, b.data_length, hlength]
    obtain ⟨hdata, h⟩ := List.append_inj h hshort
    obtain ⟨hcrc, -⟩ := List.append_inj h (a.crc_length.trans b.crc_length.symm)
    exact Chunk.ext hlength hkind hdata hcrc
  ne_nil := by
    intro c h
    have hlen := c.length_bytes
    rw [h, List.length_nil] at hlen
    omega

def isMetadata (c : Chunk) : Bool := isPngMetadata c.kind

def exif (c : Chunk) : ℕ := if c.kind = chunkName "eXIf" then c.data.length else 0

end Chunk

/-! ## One chunk -/

variable {bytes before rest tail header : List UInt8} {chunks : List Chunk} {c : Chunk}
  {a b fuel offset length chunkEnd exifBytes : ℕ} {hasMetadata : Bool}

def chunkAt (bytes : List UInt8) (offset : ℕ) : Option (List UInt8 × ℕ × ℕ) := do
  let headerEnd ← checkedAdd offset 8
  let header ← bytesAt bytes offset headerEnd
  let length := bigEndian (← bytesAt header 0 4)
  let chunkEnd ← (checkedAdd headerEnd length).bind (checkedAdd · 4)
  if bytes.length < chunkEnd then none else some (header, length, chunkEnd)

theorem checkedAdd_of_lt (h : a + b < 2 ^ 64) : checkedAdd a b = some (a + b) := if_pos h

theorem checkedAdd_eq_some {n : ℕ} (h : checkedAdd a b = some n) : n = a + b := by
  unfold checkedAdd at h
  split_ifs at h
  exact (Option.some.inj h).symm

theorem bytesAt_append (before middle tail : List UInt8) :
    bytesAt (before ++ (middle ++ tail)) before.length (before.length + middle.length) =
      some middle := by
  simp [bytesAt]

theorem bytesAt_eq_some (h : bytesAt bytes a b = some header) :
    bytes.drop a = header ++ bytes.drop b ∧ header.length = b - a := by
  unfold bytesAt at h
  split_ifs at h with hle
  obtain rfl := Option.some.inj h
  constructor
  · conv_lhs => rw [← List.take_append_drop (b - a) (bytes.drop a)]
    rw [List.drop_drop, Nat.add_sub_cancel' hle.1]
  · rw [List.length_take, List.length_drop]
    omega

theorem bigEndian_lt {l : List UInt8} (h : l.length = 4) : bigEndian l < 2 ^ 32 := by
  rcases l with _ | ⟨a, _ | ⟨b, _ | ⟨c, _ | ⟨d, _ | ⟨e, l⟩⟩⟩⟩⟩ <;> simp at h
  have := a.toNat_lt
  have := b.toNat_lt
  have := c.toNat_lt
  have := d.toNat_lt
  simp only [bigEndian, List.foldl_cons, List.foldl_nil]
  omega

theorem chunkAt_of_chunk (h : bytes = before ++ (c.bytes ++ tail)) (hs : bytes.length < 2 ^ 63) :
    chunkAt bytes before.length =
      some (c.length ++ c.kind, c.data.length, (before ++ c.bytes).length) := by
  have hlen := c.length_bytes
  have hdata := bigEndian_lt c.length_length
  have hbytes : bytes = before ++ ((c.length ++ c.kind) ++ (c.data ++ (c.crc ++ tail))) := by
    simp [h, Chunk.bytes]
  have htotal : bytes.length = before.length + c.bytes.length + tail.length := by
    simp [h, Nat.add_assoc]
  have height : 8 = (c.length ++ c.kind).length := by
    simp [c.length_length, c.kind_length]
  have hheader : bytesAt bytes before.length (before.length + 8) = some (c.length ++ c.kind) := by
    rw [hbytes, height]
    exact bytesAt_append ..
  have hlength : bytesAt (c.length ++ c.kind) 0 4 = some c.length := by
    have := bytesAt_append [] c.length c.kind
    rwa [List.length_nil, c.length_length] at this
  unfold chunkAt
  rw [checkedAdd_of_lt (by omega)]
  simp only [Option.bind_eq_bind, Option.bind_some]
  rw [hheader]
  simp only [Option.bind_some]
  rw [hlength]
  simp only [Option.bind_some]
  rw [← c.data_length, checkedAdd_of_lt (by omega), Option.bind_some,
    checkedAdd_of_lt (by omega), Option.bind_some, if_neg (by omega), List.length_append, hlen]
  congr 3
  omega

theorem chunk_of_chunkAt (h : chunkAt bytes offset = some (header, length, chunkEnd)) :
    ∃ c : Chunk, c.bytes <+: bytes.drop offset := by
  unfold chunkAt at h
  simp only [Option.bind_eq_bind, Option.bind_eq_some_iff] at h
  obtain ⟨headerEnd, hend, found, hheader, four, hfour, last, ⟨dataEnd, hdata, hlast⟩, h⟩ := h
  obtain rfl := checkedAdd_eq_some hend
  obtain rfl := checkedAdd_eq_some hdata
  obtain rfl := checkedAdd_eq_some hlast
  split_ifs at h with hle
  rw [not_lt] at hle
  obtain ⟨hsplit, hlen⟩ := bytesAt_eq_some hheader
  obtain ⟨hkind, hlen4⟩ := bytesAt_eq_some hfour
  rw [List.drop_zero] at hkind
  let body := bytes.drop (offset + 8)
  have hbody : bigEndian four + 4 ≤ body.length := by
    simp only [body, List.length_drop]
    omega
  refine ⟨⟨four, found.drop 4, body.take (bigEndian four), (body.drop (bigEndian four)).take 4,
    by omega, ?_, ?_, ?_⟩, ?_⟩
  · rw [List.length_drop]
    omega
  · rw [List.length_take]
    omega
  · rw [List.length_take, List.length_drop]
    omega
  · refine ⟨(body.drop (bigEndian four)).drop 4, ?_⟩
    simp only [Chunk.bytes, List.append_assoc, List.take_append_drop]
    rw [← List.append_assoc, ← hkind]
    exact hsplit.symm

theorem chunkAt_of_not_chunk (h : ∀ c : Chunk, ¬c.bytes <+: bytes.drop offset) :
    chunkAt bytes offset = none := by
  cases hc : chunkAt bytes offset with
  | none => rfl
  | some found =>
    obtain ⟨c, hp⟩ := chunk_of_chunkAt hc
    exact absurd hp (h c)

theorem bytesAt_some (h : a ≤ b) (hb : b ≤ bytes.length) :
    bytesAt bytes a b = some ((bytes.drop a).take (b - a)) := if_pos ⟨h, hb⟩

theorem header_readable {headerEnd : ℕ} (hend : checkedAdd offset 8 = some headerEnd)
    (h : bytesAt bytes offset headerEnd = some header) :
    bytesAt header 0 4 = some (header.take 4) ∧ bytesAt header 4 8 = some (header.drop 4) := by
  obtain rfl := checkedAdd_eq_some hend
  obtain ⟨-, hlen⟩ := bytesAt_eq_some h
  have hlen : header.length = 8 := by omega
  constructor
  · simpa using bytesAt_some (Nat.zero_le 4) (hlen ▸ (by omega : 4 ≤ 8))
  · rw [bytesAt_some (by omega) hlen.ge]
    exact congrArg some (List.take_of_length_le (by rw [List.length_drop]; omega))

theorem scanPngChunksFrom_succ :
    scanPngChunksFrom bytes (fuel + 1) offset hasMetadata exifBytes =
      if offset < bytes.length then
        (chunkAt bytes offset).elim (some (hasMetadata, exifBytes)) fun found =>
          if isPngMetadata (found.1.drop 4) then
            scanPngChunksFrom bytes fuel found.2.2 true exifBytes
          else if found.1.drop 4 = chunkName "eXIf" then
            (checkedAdd exifBytes found.2.1).bind fun n =>
              scanPngChunksFrom bytes fuel found.2.2 hasMetadata n
          else scanPngChunksFrom bytes fuel found.2.2 hasMetadata exifBytes
      else some (hasMetadata, exifBytes) := by
  conv_lhs => unfold scanPngChunksFrom
  unfold chunkAt
  simp only [Option.bind_eq_bind]
  congr 1
  rcases hend : checkedAdd offset 8 with - | headerEnd
  · rfl
  · simp only [Option.bind_some]
    rcases hheader : bytesAt bytes offset headerEnd with - | header
    · rfl
    · obtain ⟨hfour, hkind⟩ := header_readable hend hheader
      simp only [Option.bind_some, hfour, hkind]
      rcases (checkedAdd headerEnd (bigEndian (header.take 4))).bind (checkedAdd · 4) with
        - | chunkEnd
      · rfl
      · simp only [Option.bind_some]
        split_ifs <;> simp_all

theorem stripPngMetadataFrom_succ {output : Option (List UInt8)} :
    stripPngMetadataFrom bytes (fuel + 1) offset output =
      if offset < bytes.length then
        (chunkAt bytes offset).elim (finishPngFilter bytes offset output) fun found =>
          if isPngMetadata (found.1.drop 4) then
            (output.elim (bytesAt bytes 0 offset) some).bind fun filtered =>
              stripPngMetadataFrom bytes fuel found.2.2 (some filtered)
          else
            output.elim (stripPngMetadataFrom bytes fuel found.2.2 none) fun filtered =>
              (bytesAt bytes offset found.2.2).bind fun kept =>
                stripPngMetadataFrom bytes fuel found.2.2 (some (filtered ++ kept))
      else some (output.getD bytes) := by
  conv_lhs => unfold stripPngMetadataFrom
  unfold chunkAt
  simp only [Option.bind_eq_bind]
  congr 1
  rcases hend : checkedAdd offset 8 with - | headerEnd
  · rfl
  · simp only [Option.bind_some]
    rcases hheader : bytesAt bytes offset headerEnd with - | header
    · rfl
    · obtain ⟨hfour, hkind⟩ := header_readable hend hheader
      simp only [Option.bind_some, hfour, hkind]
      rcases (checkedAdd headerEnd (bigEndian (header.take 4))).bind (checkedAdd · 4) with
        - | chunkEnd
      · rfl
      · simp only [Option.bind_some]
        cases output <;> split_ifs <;> simp_all

/-! ## All chunks -/

def keptBytes (chunks : List Chunk) : List UInt8 :=
  (chunks.filter fun c => !c.isMetadata).flatMap Chunk.bytes

def exifTotal (chunks : List Chunk) : ℕ := (chunks.map Chunk.exif).sum

theorem keptBytes_cons_metadata (h : c.isMetadata = true) :
    keptBytes (c :: chunks) = keptBytes chunks := by simp [keptBytes, h]

theorem keptBytes_cons_kept (h : c.isMetadata = false) :
    keptBytes (c :: chunks) = c.bytes ++ keptBytes chunks := by simp [keptBytes, h]

theorem exifTotal_cons : exifTotal (c :: chunks) = c.exif + exifTotal chunks := by simp [exifTotal]

theorem Chunk.exif_of_isMetadata (h : c.isMetadata = true) : c.exif = 0 := by
  refine if_neg ?_
  intro hexif
  rw [Chunk.isMetadata, hexif] at h
  revert h
  decide

theorem Chunk.exif_le (c : Chunk) : c.exif ≤ c.bytes.length := by
  have := c.length_bytes
  unfold Chunk.exif
  split_ifs <;> omega

theorem exifTotal_filter (chunks : List Chunk) :
    exifTotal (chunks.filter fun c => !c.isMetadata) = exifTotal chunks := by
  induction chunks with
  | nil => rfl
  | cons c chunks ih =>
    cases h : c.isMetadata with
    | true => simp [h, exifTotal_cons, ih, Chunk.exif_of_isMetadata h]
    | false => simp [h, exifTotal_cons, ih]

theorem keptBytes_eq_iff (chunks : List Chunk) :
    keptBytes chunks = chunks.flatMap Chunk.bytes ↔ chunks.any Chunk.isMetadata = false := by
  have hstops : ∀ c : Chunk, ¬c.bytes <+: [] := fun c hc =>
    Chunk.prefixFree.ne_nil c (List.prefix_nil.mp hc)
  constructor
  · intro h
    have hkept : Framed Chunk.bytes (keptBytes chunks) (chunks.filter fun c => !c.isMetadata) [] :=
      ⟨(List.append_nil _).symm, hstops⟩
    have hall : Framed Chunk.bytes (keptBytes chunks) chunks [] :=
      ⟨by rw [h, List.append_nil], hstops⟩
    obtain ⟨heq, -⟩ := hkept.unique Chunk.prefixFree hall
    simpa using heq
  · intro h
    have hall : chunks.filter (fun c => !c.isMetadata) = chunks := by simpa using h
    rw [keptBytes, hall]

theorem chunkAt_of_stops (h : bytes = before ++ rest) (hr : ∀ c : Chunk, ¬c.bytes <+: rest) :
    chunkAt bytes before.length = none := by
  refine chunkAt_of_not_chunk ?_
  simpa [h] using hr

theorem next_chunk (heq : rest = c.bytes ++ tail) (h : bytes = before ++ rest) :
    before.length < bytes.length ∧ bytes = before ++ (c.bytes ++ tail) ∧
      tail.length + c.bytes.length = rest.length ∧ 0 < c.bytes.length := by
  have hlen := c.length_bytes
  subst heq h
  refine ⟨?_, rfl, ?_, by omega⟩ <;> simp only [List.length_append] <;> omega

theorem scanPngChunksFrom_framed (hf : Framed Chunk.bytes rest chunks tail)
    (h : bytes = before ++ rest) (hs : bytes.length < 2 ^ 63) (hfuel : rest.length < fuel)
    (he : exifBytes + rest.length < 2 ^ 64) :
    scanPngChunksFrom bytes fuel before.length hasMetadata exifBytes =
      some (hasMetadata || chunks.any Chunk.isMetadata, exifBytes + exifTotal chunks) := by
  induction chunks generalizing before rest fuel hasMetadata exifBytes with
  | nil =>
    obtain ⟨fuel, rfl⟩ := Nat.exists_eq_add_of_lt hfuel
    obtain rfl : rest = tail := hf.eq
    rw [scanPngChunksFrom_succ, chunkAt_of_stops h hf.stops]
    simp [exifTotal]
  | cons c chunks ih =>
    obtain ⟨heq, hstops⟩ := hf
    rw [List.flatMap_cons, List.append_assoc] at heq
    have hnext : Framed Chunk.bytes (chunks.flatMap Chunk.bytes ++ tail) chunks tail :=
      ⟨rfl, hstops⟩
    obtain ⟨hshort, hbytes, hrest, hpos⟩ := next_chunk heq h
    have hexif := c.exif_le
    obtain ⟨fuel, rfl⟩ := Nat.exists_eq_add_of_lt (Nat.zero_lt_of_lt hfuel)
    rw [Nat.zero_add, scanPngChunksFrom_succ, if_pos hshort, chunkAt_of_chunk hbytes hs]
    simp only [Option.elim_some, List.drop_left' c.length_length]
    have happend : bytes = before ++ c.bytes ++ (chunks.flatMap Chunk.bytes ++ tail) := by
      rw [hbytes, List.append_assoc]
    rw [exifTotal_cons, List.any_cons, ← Nat.add_assoc]
    by_cases hm : isPngMetadata c.kind = true
    · have hm' : c.isMetadata = true := hm
      rw [if_pos hm, ih hnext happend (by omega) (by omega), Chunk.exif_of_isMetadata hm', hm']
      simp
    · have hm' : c.isMetadata = false := Bool.eq_false_iff.mpr hm
      rw [if_neg hm, hm', Bool.false_or]
      by_cases hk : c.kind = chunkName "eXIf"
      · have he' : c.exif = c.data.length := if_pos hk
        rw [if_pos hk, checkedAdd_of_lt (by omega), Option.bind_some,
          ih hnext happend (by omega) (by omega), he']
      · have he' : c.exif = 0 := if_neg hk
        rw [if_neg hk, ih hnext happend (by omega) (by omega), he', Nat.add_zero]

theorem stripPngMetadataFrom_framed (hf : Framed Chunk.bytes rest chunks tail)
    (h : bytes = before ++ rest) (hs : bytes.length < 2 ^ 63) (hfuel : rest.length < fuel)
    (output : Option (List UInt8)) :
    stripPngMetadataFrom bytes fuel before.length output =
      some (output.getD before ++ (keptBytes chunks ++ tail)) := by
  induction chunks generalizing before rest fuel output with
  | nil =>
    obtain ⟨fuel, rfl⟩ := Nat.exists_eq_add_of_lt hfuel
    obtain rfl : rest = tail := hf.eq
    rw [stripPngMetadataFrom_succ, chunkAt_of_stops h hf.stops]
    subst h
    cases output with
    | none => simp [finishPngFilter, keptBytes]
    | some filtered =>
      by_cases hr : rest = []
      · simp [hr, keptBytes]
      · simp [finishPngFilter, keptBytes, bytesAt, List.length_pos_iff.mpr hr]
  | cons c chunks ih =>
    obtain ⟨heq, hstops⟩ := hf
    rw [List.flatMap_cons, List.append_assoc] at heq
    have hnext : Framed Chunk.bytes (chunks.flatMap Chunk.bytes ++ tail) chunks tail :=
      ⟨rfl, hstops⟩
    obtain ⟨hshort, hbytes, hrest, hpos⟩ := next_chunk heq h
    obtain ⟨fuel, rfl⟩ := Nat.exists_eq_add_of_lt (Nat.zero_lt_of_lt hfuel)
    rw [Nat.zero_add, stripPngMetadataFrom_succ, if_pos hshort, chunkAt_of_chunk hbytes hs]
    simp only [Option.elim_some, List.drop_left' c.length_length]
    have happend : bytes = before ++ c.bytes ++ (chunks.flatMap Chunk.bytes ++ tail) := by
      rw [hbytes, List.append_assoc]
    have hbefore : bytesAt bytes 0 before.length = some before := by
      rw [h]
      simp [bytesAt]
    have hchunk : bytesAt bytes before.length (before ++ c.bytes).length = some c.bytes := by
      rw [hbytes, List.length_append]
      exact bytesAt_append ..
    by_cases hm : isPngMetadata c.kind = true
    · rw [if_pos hm, keptBytes_cons_metadata hm]
      cases output with
      | none =>
        simp only [Option.elim_none, hbefore, Option.bind_some]
        exact ih hnext happend (by omega) (some before)
      | some filtered => exact ih hnext happend (by omega) (some filtered)
    · rw [if_neg hm, keptBytes_cons_kept (Bool.eq_false_iff.mpr hm)]
      cases output with
      | none =>
        simp only [Option.elim_none]
        rw [ih hnext happend (by omega) none]
        simp
      | some filtered =>
        simp only [Option.elim_some, hchunk, Option.bind_some]
        rw [ih hnext happend (by omega) (some (filtered ++ c.bytes))]
        simp

/-! ## A whole file -/

variable {file : List UInt8}

theorem walks_of_signature (hf : Framed Chunk.bytes rest chunks tail)
    (h : file = pngSignature ++ rest) (hs : file.length < 2 ^ 63) :
    stripPngMetadata file = some (pngSignature ++ (keptBytes chunks ++ tail)) ∧
      scanPngChunks file = some (chunks.any Chunk.isMetadata, exifTotal chunks) := by
  have hp : pngSignature <+: file := ⟨rest, h.symm⟩
  have hlen : rest.length < file.length + 1 := by
    rw [h, List.length_append]
    omega
  constructor
  · rw [stripPngMetadata, if_pos hp]
    exact stripPngMetadataFrom_framed hf h hs hlen none
  · rw [scanPngChunks, if_pos hp, scanPngChunksFrom_framed hf h hs hlen (by omega)]
    simp

theorem walks_of_not_signature (h : ¬pngSignature <+: file) :
    stripPngMetadata file = some file ∧ scanPngChunks file = some (false, 0) :=
  ⟨if_neg h, if_neg h⟩

theorem walks_agree (file : Slice) :
    ∃ stripped hasMetadata exif, stripPngMetadata file.bytes = some stripped ∧
      scanPngChunks file.bytes = some (hasMetadata, exif) ∧
      (hasMetadata = true ↔ stripped ≠ file.bytes) ∧ stripped.length ≤ file.bytes.length ∧
      stripPngMetadata stripped = some stripped ∧ scanPngChunks stripped = some (false, exif) := by
  by_cases hp : pngSignature <+: file.bytes
  · obtain ⟨rest, h⟩ := hp
    obtain ⟨chunks, tail, hf⟩ := exists_framed Chunk.prefixFree rest
    obtain ⟨hstrip, hscan⟩ := walks_of_signature hf h.symm file.short
    have hkept : Framed Chunk.bytes (keptBytes chunks ++ tail)
        (chunks.filter fun c => !c.isMetadata) tail := hf.filter _
    have hsub : (keptBytes chunks ++ tail).length ≤ rest.length := by
      rw [hf.eq]
      exact ((List.filter_sublist.flatMap _).append_right tail).length_le
    have hshort : (pngSignature ++ (keptBytes chunks ++ tail)).length ≤ file.bytes.length := by
      simp only [← h, List.length_append] at hsub ⊢
      omega
    obtain ⟨hagain, hscanned⟩ :=
      walks_of_signature hkept rfl (lt_of_le_of_lt hshort file.short)
    refine ⟨_, _, _, hstrip, hscan, ?_, hshort, ?_, ?_⟩
    · rw [← h, Ne, List.append_cancel_left_eq, hf.eq, List.append_cancel_right_eq,
        keptBytes_eq_iff, Bool.not_eq_false]
    · rw [hagain]
      simp [keptBytes]
    · rw [hscanned, exifTotal_filter]
      simp
  · obtain ⟨hstrip, hscan⟩ := walks_of_not_signature hp
    exact ⟨_, _, _, hstrip, hscan, by simp, le_rfl, hstrip, hscan⟩

theorem pngMetadataCopyBytes_eq {exif : ℕ} {stripped : List UInt8}
    (hscan : scanPngChunks file = some (hasMetadata, exif))
    (h : hasMetadata = true ↔ stripped ≠ file) :
    pngMetadataCopyBytes file true =
      some (min maxCharge ((if stripped = file then 0 else file.length) + 2 * exif)) := by
  simp only [pngMetadataCopyBytes, hscan]
  refine congrArg some ?_
  cases hasMetadata with
  | true =>
    rw [if_pos rfl, if_neg (h.mp rfl)]
    omega
  | false =>
    rw [if_neg Bool.false_ne_true, if_pos (by simpa using h)]
    omega

/-- A PNG file is stripped of exactly its well-framed metadata, and the charge covers the copy. -/
theorem metadata_stripped_and_charged (file : Slice) :
    ∃ stripped hasMetadata exif, stripPngMetadata file.bytes = some stripped ∧
      scanPngChunks file.bytes = some (hasMetadata, exif) ∧
      (¬pngSignature <+: file.bytes → stripped = file.bytes ∧ exif = 0) ∧
      (∀ rest, file.bytes = pngSignature ++ rest → ∃ chunks tail,
        (∀ chunks' tail', Framed Chunk.bytes rest chunks' tail' ↔
          chunks' = chunks ∧ tail' = tail) ∧
        stripped = pngSignature ++ (keptBytes chunks ++ tail) ∧ exif = exifTotal chunks) ∧
      (hasMetadata = true ↔ stripped ≠ file.bytes) ∧
      stripPngMetadata stripped = some stripped ∧ scanPngChunks stripped = some (false, exif) ∧
      stripped.length ≤ file.bytes.length ∧
      pngMetadataCopyBytes file.bytes true =
        some (min maxCharge
          ((if stripped = file.bytes then 0 else file.bytes.length) + 2 * exif)) := by
  obtain ⟨stripped, hasMetadata, exif, hstrip, hscan, hiff, hlen, hagain, hscanned⟩ :=
    walks_agree file
  refine ⟨stripped, hasMetadata, exif, hstrip, hscan, ?_, ?_, hiff, hagain, hscanned, hlen,
    pngMetadataCopyBytes_eq hscan hiff⟩
  · intro hp
    obtain ⟨hstrip', hscan'⟩ := walks_of_not_signature hp
    simp_all
  · intro rest h
    obtain ⟨chunks, tail, hf⟩ := exists_framed Chunk.prefixFree rest
    obtain ⟨hstrip', hscan'⟩ := walks_of_signature hf h file.short
    refine ⟨chunks, tail, ?_, by simp_all, by simp_all⟩
    intro chunks' tail'
    constructor
    · intro hf'
      exact hf'.unique Chunk.prefixFree hf
    · rintro ⟨rfl, rfl⟩
      exact hf

end CayenChat.Media
