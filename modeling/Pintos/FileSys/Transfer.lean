import Pintos.FileSys.Device

/-!
# Moving bytes through sectors

`inode_read_at` and `inode_write_at` end in the same loop in `fs_PintOS` and in
`vm_PintOS`: resolve the sector of the current offset with `byte_to_sector`,
move at most the rest of that sector, advance.  Only `byte_to_sector` differs, so
the loops are stated over it (`bts`) and instantiated by both inode layers.

A loop iteration moves `chunk` ≥ 1 bytes, so `size` iterations are enough; the
loops recurse on that bound, and `readLoop_spec` / `writeLoop_spec` show that the
bound is never what stops them.
-/

namespace Pintos

open Lib Lib.Block

/-- The bytes left to move in one iteration: what the caller still wants, what
the inode still has after `offset`, what the sector still has. -/
def chunkSize (len : ℤ) (size offset : ℕ) : ℕ :=
  min size (min (len - offset).toNat (512 - offset % 512))

/-- The body of one read iteration: a full sector goes directly into the caller's
buffer, anything less through a bounce buffer. -/
def readChunk (dev : Device) (sectorIdx sectorOfs chunk : ℕ) : Except Fault (List UInt8) :=
  if sectorOfs = 0 ∧ chunk = 512 then do
    let block ← blockRead dev sectorIdx
    return (List.range 512).map (byteAt block)
  else do
    let bounce ← blockRead dev sectorIdx
    return (List.range chunk).map fun k => byteAt bounce (sectorOfs + k)

/-- The loop of `inode_read_at`, returning the bytes it stores in the buffer. -/
def readLoop (dev : Device) (bts : ℕ → Except Fault ℕ) (len : ℤ) :
    ℕ → ℕ → ℕ → Except Fault (List UInt8)
  | 0, _, _ => .ok []
  | fuel + 1, size, offset =>
      if size = 0 then .ok [] else do
        let sectorIdx ← bts offset
        let chunk := chunkSize len size offset
        if chunk = 0 then .ok [] else do
          let bytes ← readChunk dev sectorIdx (offset % 512) chunk
          let rest ← readLoop dev bts len fuel (size - chunk) (offset + chunk)
          return bytes ++ rest

/-- The bounce buffer of one write iteration: if the sector has data before or
after the chunk it is read in first, otherwise it starts as zeros. -/
def bounceBuffer (dev : Device) (sectorIdx sectorOfs chunk : ℕ) : Except Fault Sector :=
  if 0 < sectorOfs ∨ chunk < 512 - sectorOfs then blockRead dev sectorIdx else .ok zeros

/-- The body of one write iteration: a full sector goes directly to disk, anything
less through the bounce buffer. -/
def writeChunk (dev : Device) (sectorIdx sectorOfs chunk : ℕ) (buffer : ℕ → UInt8) :
    Except Fault Device :=
  if sectorOfs = 0 ∧ chunk = 512 then
    blockWrite dev sectorIdx (ofFn buffer)
  else do
    let bounce ← bounceBuffer dev sectorIdx sectorOfs chunk
    blockWrite dev sectorIdx (patch bounce sectorOfs chunk buffer)

/-- The loop of `inode_write_at`, returning `bytes_written` and the device. -/
def writeLoop (bts : Device → ℕ → Except Fault ℕ) (len : ℤ) (buffer : ℕ → UInt8) :
    ℕ → ℕ → ℕ → ℕ → Device → Except Fault (ℕ × Device)
  | 0, _, _, written, dev => .ok (written, dev)
  | fuel + 1, size, offset, written, dev =>
      if size = 0 then .ok (written, dev) else do
        let sectorIdx ← bts dev offset
        let chunk := chunkSize len size offset
        if chunk = 0 then .ok (written, dev) else do
          let dev ← writeChunk dev sectorIdx (offset % 512) chunk fun k => buffer (written + k)
          writeLoop bts len buffer fuel (size - chunk) (offset + chunk) (written + chunk) dev

/-- How many bytes a transfer of `size` bytes at `offset` moves in a file of
`len` bytes. -/
def transferred (len : ℤ) (size offset : ℕ) : ℕ := min size (len - offset).toNat

theorem chunkSize_le_transferred (len : ℤ) (size offset : ℕ) :
    chunkSize len size offset ≤ transferred len size offset := by
  unfold chunkSize transferred
  omega

theorem chunkSize_eq_zero {len : ℤ} {size offset : ℕ} :
    chunkSize len size offset = 0 ↔ transferred len size offset = 0 := by
  unfold chunkSize transferred
  omega

theorem transferred_step (len : ℤ) (size offset : ℕ) :
    transferred len (size - chunkSize len size offset) (offset + chunkSize len size offset)
      = transferred len size offset - chunkSize len size offset := by
  unfold chunkSize transferred
  omega

/-- The offsets a chunk touches lie in one sector. -/
theorem chunk_same_sector {len : ℤ} {size offset k : ℕ} (h : k < chunkSize len size offset) :
    (offset + k) / 512 = offset / 512 ∧ (offset + k) % 512 = offset % 512 + k := by
  unfold chunkSize at h
  omega

/-! ## Reading -/

/-- Both paths of a read iteration copy the same bytes of the sector. -/
theorem readChunk_ok {dev : Device} {sectorIdx ofs chunk : ℕ} (h : sectorIdx < dev.size) :
    readChunk dev sectorIdx ofs chunk =
      .ok ((List.range chunk).map fun k => byteAt (dev.disk sectorIdx) (ofs + k)) := by
  unfold readChunk
  rw [blockRead_ok h]
  split
  · next full => simp only [full.1, full.2, Nat.zero_add]; rfl
  · rfl

/-- **What a read returns.**  If every offset below `len` resolves to the sector
`slot` assigns to its index, the bytes read are the bytes of the file. -/
theorem readLoop_spec {dev : Device} {bts : ℕ → Except Fault ℕ} {len : ℤ} {slot : ℕ → ℕ}
    (resolves : ∀ pos : ℕ, (pos : ℤ) < len → bts pos = .ok (slot (pos / 512)))
    (total : ∀ pos : ℕ, ∃ s, bts pos = .ok s)
    (inside : ∀ pos : ℕ, (pos : ℤ) < len → slot (pos / 512) < dev.size) :
    ∀ fuel size offset, size ≤ fuel →
      readLoop dev bts len fuel size offset =
        .ok ((List.range (transferred len size offset)).map fun k =>
          view dev.disk slot (offset + k)) := by
  intro fuel
  induction fuel with
  | zero =>
      intro size offset h
      simp [readLoop, transferred, Nat.le_zero.mp h]
  | succ fuel ih =>
      intro size offset h
      rw [readLoop]
      by_cases hs : size = 0
      · simp [hs, transferred]
      rw [if_neg hs]
      by_cases hc : chunkSize len size offset = 0
      · obtain ⟨s, hbts⟩ := total offset
        simp [hbts, hc, chunkSize_eq_zero.mp hc]
      have hpos : (offset : ℤ) < len := by
        unfold chunkSize at hc
        omega
      simp only [resolves offset hpos, ok_bind, if_neg hc, readChunk_ok (inside offset hpos),
        ih _ (offset + chunkSize len size offset)
          (by omega : size - chunkSize len size offset ≤ fuel)]
      refine congrArg Except.ok ?_
      obtain ⟨d, hd⟩ := Nat.exists_eq_add_of_le (chunkSize_le_transferred len size offset)
      rw [transferred_step, hd, Nat.add_sub_cancel_left, List.range_add, List.map_append,
        List.map_map]
      congr 1
      · refine List.map_congr_left fun k hk => ?_
        obtain ⟨h1, h2⟩ := chunk_same_sector (List.mem_range.mp hk)
        rw [view, h1, h2]
      · refine List.map_congr_left fun k _ => ?_
        simp [Nat.add_assoc]

/-! ## Writing -/

/-- A device that differs from `dev` at most in the sectors `slot 0, …, slot (m - 1)`. -/
structure SameOutside (slot : ℕ → ℕ) (m : ℕ) (dev dev' : Device) : Prop where
  size : dev'.size = dev.size
  disk : ∀ t, (∀ i < m, slot i ≠ t) → dev'.disk t = dev.disk t

theorem SameOutside.refl (slot : ℕ → ℕ) (m : ℕ) (dev : Device) : SameOutside slot m dev dev :=
  ⟨rfl, fun _ _ => rfl⟩

theorem SameOutside.trans {slot : ℕ → ℕ} {m : ℕ} {a b c : Device}
    (h : SameOutside slot m a b) (h' : SameOutside slot m b c) : SameOutside slot m a c :=
  ⟨h'.size.trans h.size, fun t ht => (h'.disk t ht).trans (h.disk t ht)⟩

theorem SameOutside.put (slot : ℕ → ℕ) {m k : ℕ} (dev : Device) (b : Sector) (hk : k < m) :
    SameOutside slot m dev (dev.put (slot k) b) := by
  refine ⟨rfl, fun t ht => ?_⟩
  rw [Device.put_disk, Function.update_of_ne (Ne.symm (ht k hk))]

/-- Both paths of a write iteration replace exactly the chunk's bytes. -/
theorem writeChunk_ok {dev : Device} {sectorIdx : ℕ} (ofs chunk : ℕ) (buffer : ℕ → UInt8)
    (h : sectorIdx < dev.size) :
    ∃ block : Sector, writeChunk dev sectorIdx ofs chunk buffer =
        .ok (dev.put sectorIdx block) ∧
      ∀ r < 512, byteAt block r =
        if ofs ≤ r ∧ r < ofs + chunk then buffer (r - ofs)
        else byteAt (dev.disk sectorIdx) r := by
  unfold writeChunk
  split
  · next full =>
      refine ⟨_, blockWrite_ok _ h, fun r hr => ?_⟩
      rw [byteAt_ofFn _ hr, if_pos (by omega), full.1, Nat.sub_zero]
  · unfold bounceBuffer
    split
    · rw [blockRead_ok h]
      refine ⟨_, blockWrite_ok _ h, fun r hr => ?_⟩
      rw [byteAt_patch _ _ _ _ hr]
    · next whole =>
        refine ⟨_, blockWrite_ok _ h, fun r hr => ?_⟩
        rw [byteAt_patch _ _ _ _ hr, if_pos (by omega), if_pos (by omega)]

/-- **What a write does.**  The file's `m` sectors are distinct and inside the
device, and resolving an offset reads none of them; then exactly the bytes in
range are replaced, and no other sector of the device changes. -/
theorem writeLoop_spec {bts : Device → ℕ → Except Fault ℕ} {len : ℤ} (buffer : ℕ → UInt8)
    {slot : ℕ → ℕ} {m : ℕ}
    (inj : ∀ i < m, ∀ j < m, slot i = slot j → i = j) (hlen : len ≤ 512 * m) :
    ∀ fuel size offset written (dev : Device), size ≤ fuel →
      (∀ i < m, slot i < dev.size) →
      (∀ dev', SameOutside slot m dev dev' → ∀ pos : ℕ, (pos : ℤ) < len →
        bts dev' pos = .ok (slot (pos / 512))) →
      (∀ dev', SameOutside slot m dev dev' → ∀ pos : ℕ, ∃ s, bts dev' pos = .ok s) →
      ∃ dev', writeLoop bts len buffer fuel size offset written dev =
          .ok (written + transferred len size offset, dev') ∧
        SameOutside slot m dev dev' ∧
        ∀ i, i / 512 < m → view dev'.disk slot i =
          if offset ≤ i ∧ i < offset + transferred len size offset
          then buffer (written + (i - offset)) else view dev.disk slot i := by
  intro fuel
  induction fuel with
  | zero =>
      intro size offset written dev h _ _ _
      have h0 : transferred len size offset = 0 := by unfold transferred; omega
      refine ⟨dev, by simp [writeLoop, h0], .refl _ _ _, fun i _ => ?_⟩
      rw [h0, if_neg (by omega)]
  | succ fuel ih =>
      intro size offset written dev h inside resolves total
      rw [writeLoop]
      by_cases hc : chunkSize len size offset = 0
      · have h0 := chunkSize_eq_zero.mp hc
        obtain ⟨s, hbts⟩ := total dev (.refl _ _ _) offset
        refine ⟨dev, ?_, .refl _ _ _, fun i _ => by rw [h0, if_neg (by omega)]⟩
        by_cases hs : size = 0
        · simp [hs, transferred]
        · simp [hs, hbts, hc, h0]
      have hs : size ≠ 0 := by
        unfold chunkSize at hc
        omega
      have hpos : (offset : ℤ) < len := by
        unfold chunkSize at hc
        omega
      have hk : offset / 512 < m := by omega
      have hin := inside _ hk
      rw [if_neg hs]
      simp only [resolves dev (.refl _ _ _) offset hpos, ok_bind, if_neg hc]
      obtain ⟨block, hblock, hbytes⟩ := writeChunk_ok (offset % 512)
        (chunkSize len size offset) (fun k => buffer (written + k)) hin
      simp only [hblock, ok_bind]
      have hput := SameOutside.put slot dev block hk
      obtain ⟨dev', hrun, hsame, hview⟩ := ih (size - chunkSize len size offset)
        (offset + chunkSize len size offset) (written + chunkSize len size offset)
        (dev.put (slot (offset / 512)) block) (by omega) inside
        (fun d hd => resolves d (hput.trans hd)) (fun d hd => total d (hput.trans hd))
      have hle := chunkSize_le_transferred len size offset
      rw [transferred_step] at hrun hview
      refine ⟨dev', ?_, hput.trans hsame, fun i hi => ?_⟩
      · rw [hrun, Nat.add_assoc, Nat.add_sub_cancel' hle]
      rw [hview i hi]
      by_cases hlater : offset + chunkSize len size offset ≤ i ∧
          i < offset + chunkSize len size offset
            + (transferred len size offset - chunkSize len size offset)
      · rw [if_pos hlater, if_pos (by omega)]
        congr 1
        omega
      rw [if_neg hlater, Device.put_disk, view_update block inj hk hi]
      by_cases hsec : i / 512 = offset / 512
      · rw [if_pos hsec, hbytes _ (by omega)]
        by_cases hnow : offset ≤ i ∧ i < offset + chunkSize len size offset
        · rw [if_pos (by omega), if_pos (by omega)]
          congr 2
          omega
        · have : ¬ (offset ≤ i ∧ i < offset + transferred len size offset) := by omega
          rw [if_neg (by omega), if_neg this, view, hsec]
      · have hnot : ¬ (offset ≤ i ∧ i < offset + transferred len size offset) := by
          intro hin
          -- a byte of the first chunk lies in the first sector
          refine hsec ?_
          have hlt : i - offset < chunkSize len size offset := by omega
          have := (chunk_same_sector hlt).1
          rwa [Nat.add_sub_cancel' hin.1] at this
        rw [if_neg hsec, if_neg hnot]

end Pintos
