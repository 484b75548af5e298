import Pintos.Lib.GrowArray
import Pintos.FileSys.State

/-!
# Inodes of `vm_PintOS`

`vm_PintOS/filesys/inode.c`: the data of an inode is one contiguous run of
sectors, fixed when the inode is created.  `struct inode_disk` as words: `start`,
`length`, `magic`, the rest unused.

The transfer loops, the free map and the open inodes are those of `fs_PintOS`;
only `byte_to_sector`, `inode_create` and the missing growth are different.
-/

namespace Pintos.Vm

open Lib Lib.Block

/-! ## The code -/

/-- `start`. -/
def inodeStart (d : Sector) : ℕ := wordAt d 0

/-- `length`. -/
def inodeLength (d : Sector) : ℤ := toInt32 (wordAt d 1)

/-- `bytes_to_sectors`. -/
def bytesToSectors (size : ℤ) : ℕ := ofInt32 ((wrap32 (size + 511)).tdiv 512)

/-- `byte_to_sector`; an offset outside the inode gives -1, as a `block_sector_t`. -/
def byteToSector (d : Sector) (pos : ℕ) : Except Fault ℕ :=
  if (pos : ℤ) < inodeLength d then .ok ((inodeStart d + pos / 512) % 2 ^ 32)
  else .ok (2 ^ 32 - 1)

/-- `inode_read_at`. -/
def inodeReadAt (fs : FsState) (p : ℕ) (size : ℤ) (offset : ℕ) : Except Fault (List UInt8) := do
  let inode ← fs.inode p
  readLoop fs.dev (byteToSector inode.data) (inodeLength inode.data) size.toNat size.toNat offset

/-- `inode_write_at`. -/
def inodeWriteAt (fs : FsState) (p : ℕ) (buffer : ℕ → UInt8) (size : ℤ) (offset : ℕ) :
    Except Fault (ℤ × FsState) := do
  let inode ← fs.inode p
  if inode.denyWriteCnt ≠ 0 then
    return (0, fs)
  else do
    let (written, dev) ← writeLoop (fun _ => byteToSector inode.data) (inodeLength inode.data)
      buffer size.toNat size.toNat offset 0 fs.dev
    return (written, fs.setDev dev)

/-- `free_map_allocate`. -/
def freeMapAllocate : FsState → ℕ → Except Fault (Option ℕ × FsState) :=
  freeMapAllocateWith inodeWriteAt

/-- The loop of `inode_create` that zeroes the data sectors. -/
def zeroSectors (start : ℕ) : ℕ → Device → Except Fault Device
  | 0, dev => .ok dev
  | n + 1, dev => do
      let dev ← zeroSectors start n dev
      blockWrite dev ((start + n) % 2 ^ 32) zeros

/-- The new `struct inode_disk`. -/
def newInodeDisk (start : ℕ) (length : ℤ) : Sector :=
  ofWords fun j => if j = 0 then start else if j = 1 then ofInt32 length
    else if j = 2 then 0x494e4f44 else 0

/-- `inode_create`. -/
def inodeCreate (fs : FsState) (sector : ℕ) (length : ℤ) : Except Fault (Bool × FsState) :=
  if length < 0 then .error (.assertFailed .inodeCreate) else do
    let (r, fs) ← freeMapAllocate fs (bytesToSectors length)
    match r with
    | none => return (false, fs)
    | some start => do
        let dev ← blockWrite fs.dev sector (newInodeDisk start length)
        let dev ← zeroSectors start (bytesToSectors length) dev
        return (true, fs.setDev dev)

/-! ## The data of an inode -/

/-- The number of data sectors of an inode. -/
def count (d : Sector) : ℕ := ((inodeLength d + 511) / 512).toNat

/-- The data sectors lie on the device. -/
structure RunOk (dev : Device) (d : Sector) : Prop where
  len_nonneg : 0 ≤ inodeLength d
  inside : inodeStart d + count d ≤ dev.size

/-- Byte `i` of the inode. -/
def fileByte (disk : ℕ → Sector) (d : Sector) (i : ℕ) : UInt8 :=
  view disk (fun k => inodeStart d + k) i

section

variable {dev : Device} {d : Sector}

theorem byteToSector_ok (h : RunOk dev d) {pos : ℕ} (hpos : (pos : ℤ) < inodeLength d) :
    byteToSector d pos = .ok (inodeStart d + pos / 512) := by
  have hin := h.inside
  have hsize := dev.size_lt
  have hlt : pos / 512 < count d := by
    unfold count
    omega
  rw [byteToSector, if_pos hpos, Nat.mod_eq_of_lt (by omega)]

theorem byteToSector_total (d : Sector) (pos : ℕ) : ∃ s, byteToSector d pos = .ok s := by
  unfold byteToSector
  split <;> exact ⟨_, rfl⟩

/-- A read returns the bytes of the inode. -/
theorem readLoop_run (h : RunOk dev d) (size offset : ℕ) :
    readLoop dev (byteToSector d) (inodeLength d) size size offset =
      .ok ((List.range (transferred (inodeLength d) size offset)).map fun k =>
        fileByte dev.disk d (offset + k)) := by
  have hin := h.inside
  refine readLoop_spec (fun pos hpos => byteToSector_ok h hpos) (byteToSector_total d)
    (fun pos hpos => ?_) size size offset le_rfl
  have : pos / 512 < count d := by
    unfold count
    omega
  omega

/-- A write replaces the bytes in range and touches no other sector. -/
theorem writeLoop_run (h : RunOk dev d) (buffer : ℕ → UInt8) (size offset : ℕ) :
    ∃ dev', writeLoop (fun _ => byteToSector d) (inodeLength d) buffer size size offset 0 dev
        = .ok (transferred (inodeLength d) size offset, dev') ∧
      SameOutside (fun k => inodeStart d + k) (count d) dev dev' ∧
      ∀ i : ℕ, (i : ℤ) < inodeLength d → fileByte dev'.disk d i =
        if offset ≤ i ∧ i < offset + transferred (inodeLength d) size offset
        then buffer (i - offset) else fileByte dev.disk d i := by
  have hin := h.inside
  have inj : ∀ i < count d, ∀ j < count d, inodeStart d + i = inodeStart d + j → i = j := by
    intro i _ j _ e
    omega
  have hlen : inodeLength d ≤ 512 * count d := by
    unfold count
    omega
  obtain ⟨dev', hrun, same, hview⟩ := writeLoop_spec buffer inj hlen size size offset 0 dev le_rfl
    (fun i hi => by omega) (fun _ _ pos hpos => byteToSector_ok h hpos)
    (fun _ _ pos => byteToSector_total d pos)
  refine ⟨dev', by simpa using hrun, same, fun i hi => ?_⟩
  have := hview i (by unfold count; omega)
  rw [Nat.zero_add] at this
  exact this

end

/-! ## The free map -/

/-- The free map can be written out: its file is not open yet, or it is open, on a
writable inode that is long enough and whose sectors are marked used. -/
def MapReady (fs : FsState) : Prop :=
  fs.freeMapFile = none ∨ ∃ f file ino, fs.freeMapFile = some f ∧ fs.files f = some file ∧
    fs.inodes file.inode = some ino ∧ ino.denyWriteCnt = 0 ∧
    inodeLength ino.data = byteCnt fs.freeMap.bitCnt ∧ RunOk fs.dev ino.data

/-- **A consistent `vm_PintOS` file system**, as far as a new inode is concerned. -/
structure Consistent (fs : FsState) : Prop where
  mapSize : fs.freeMap.bitCnt = fs.dev.size
  ready : MapReady fs
  opens : ∀ p ∈ fs.openInodes, ∀ ino, fs.inodes p = some ino →
    ino.sector < fs.dev.size ∧ fs.freeMap.bits ino.sector = true

section

variable {fs : FsState} {cnt r : ℕ}

theorem bitmapWrite_ok {f : ℕ} {file : File} {ino : Inode} (hf : fs.files f = some file)
    (hino : fs.inodes file.inode = some ino) (hdeny : ino.denyWriteCnt = 0)
    (hlen : inodeLength ino.data = byteCnt fs.freeMap.bitCnt) (run : RunOk fs.dev ino.data) :
    ∃ dev', bitmapWriteWith inodeWriteAt fs f = .ok (true, fs.setDev dev') ∧
      dev'.size = fs.dev.size := by
  obtain ⟨dev', hrun, same, -⟩ := writeLoop_run run (bitmapByte fs.freeMap)
    (byteCnt fs.freeMap.bitCnt) 0
  have hall : transferred (inodeLength ino.data) (byteCnt fs.freeMap.bitCnt) 0 =
      byteCnt fs.freeMap.bitCnt := by
    unfold transferred
    omega
  refine ⟨dev', ?_, same.size⟩
  simp only [bitmapWriteWith, FsState.file_ok hf, ok_bind, inodeWriteAt, FsState.inode_ok hino,
    hdeny, ne_eq, not_true, if_false, Int.toNat_natCast, hrun, hall]
  simp only [pure, Except.pure, ok_bind, decide_true]

/-- `free_map_allocate` finds a run if there is one. -/
theorem freeMapAllocate_spec (h : Consistent fs) (hr : fs.freeMap.FreeRun r cnt) :
    ∃ t dev', freeMapAllocate fs cnt =
        .ok (some t, (fs.setMap (fs.freeMap.setRange t cnt true)).setDev dev') ∧
      fs.freeMap.FreeRun t cnt ∧ t ≤ r ∧ dev'.size = fs.dev.size ∧
      Consistent ((fs.setMap (fs.freeMap.setRange t cnt true)).setDev dev') := by
  obtain ⟨t, hscan, hrun⟩ := bitmapScan_free hr
  have hfirst := bitmapScan_first hscan hr
  have mono : ∀ k, fs.freeMap.bits k = true → (fs.freeMap.setRange t cnt true).bits k = true := by
    intro k hk
    simp [Bitmap.setRange, hk]
  rcases h.ready with hf | ⟨f, file, ino, hf, hfile, hino, hdeny, hlen, run⟩
  · refine ⟨t, fs.dev, ?_, hrun, hfirst, rfl, h.mapSize, .inl hf, fun p hp a ha =>
      ⟨(h.opens p hp a ha).1, mono _ (h.opens p hp a ha).2⟩⟩
    simp only [freeMapAllocate, freeMapAllocateWith, hscan, commitAllocation,
      FsState.setMap_freeMapFile, hf]
    rfl
  · have hfile' : (fs.setMap (fs.freeMap.setRange t cnt true)).files f = some file := hfile
    obtain ⟨dev', hwrite, hsize⟩ := bitmapWrite_ok hfile' hino hdeny hlen run
    refine ⟨t, dev', ?_, hrun, hfirst, hsize, h.mapSize.trans hsize.symm,
      .inr ⟨f, file, ino, hf, hfile, hino, hdeny, hlen, run.len_nonneg, hsize ▸ run.inside⟩,
      fun p hp a ha => ⟨hsize ▸ (h.opens p hp a ha).1, mono _ (h.opens p hp a ha).2⟩⟩
    simp only [freeMapAllocate, freeMapAllocateWith, hscan, commitAllocation,
      FsState.setMap_freeMapFile, hf, hwrite, ok_bind, if_true]
    rfl

/-- The zeroing loop. -/
theorem zeroSectors_spec (start : ℕ) :
    ∀ (n : ℕ) (dev : Device), start + n ≤ dev.size →
      ∃ dev', zeroSectors start n dev = .ok dev' ∧ dev'.size = dev.size ∧
        (∀ i < n, dev'.disk (start + i) = zeros) ∧
        ∀ t, t < start ∨ start + n ≤ t → dev'.disk t = dev.disk t := by
  intro n
  induction n with
  | zero => exact fun dev _ => ⟨dev, rfl, rfl, by omega, fun _ _ => rfl⟩
  | succ n ih =>
      intro dev h
      obtain ⟨dev1, hrun, hsize, hzero, hother⟩ := ih dev (by omega)
      have hin : start + n < dev1.size := by omega
      have hlt := dev1.size_lt
      refine ⟨dev1.put (start + n) zeros, ?_, hsize, fun i hi => ?_, fun t ht => ?_⟩
      · rw [zeroSectors, hrun, ok_bind, Nat.mod_eq_of_lt (by omega), blockWrite_ok _ hin]
      · by_cases e : i = n
        · rw [e, Device.put_disk, Function.update_self]
        · rw [Device.put_disk, Function.update_of_ne (by omega), hzero i (by omega)]
      · rw [Device.put_disk, Function.update_of_ne (by omega), hother t (by omega)]

theorem bytesToSectors_eq {len : ℤ} (h0 : 0 ≤ len) (h1 : len ≤ 8516608) :
    bytesToSectors len = ((len + 511) / 512).toNat := by
  unfold bytesToSectors
  rw [wrap32_of_range (by omega) (by omega), Int.tdiv_eq_ediv_of_nonneg (by omega)]
  unfold ofInt32
  omega

theorem newInodeDisk_fields {start : ℕ} {len : ℤ} (hstart : start < 2 ^ 32) (h0 : 0 ≤ len)
    (h1 : len ≤ 8516608) :
    inodeStart (newInodeDisk start len) = start ∧ inodeLength (newInodeDisk start len) = len := by
  constructor
  · rw [inodeStart, newInodeDisk, wordAt_ofWords _ (by norm_num) (by simpa using hstart)]
    rfl
  · rw [inodeLength, newInodeDisk, wordAt_ofWords _ (by norm_num) (by simpa using ofInt32_lt len)]
    exact toInt32_ofInt32 (by omega) (by omega)

/-- The inode is open at `p`, writable, and holds the array `a`. -/
def HoldsArray (p : ℕ) (fs : FsState) (a : List UInt8) : Prop :=
  ∃ ino, fs.inodes p = some ino ∧ ino.denyWriteCnt = 0 ∧ RunOk fs.dev ino.data ∧
    a = GrowArray.tabulate (inodeLength ino.data).toNat (fileByte fs.dev.disk ino.data)

/-- **A new inode is an array of zeros.** -/
theorem Consistent.newInode (h : Consistent fs) {len : ℤ} (h0 : 0 ≤ len) (h1 : len ≤ 8516608)
    (room : fs.freeMap.FreeRun r (1 + bytesToSectors len)) :
    ∃ s fs1 fs2 p fs3, freeMapAllocate fs 1 = .ok (some s, fs1) ∧
      inodeCreate fs1 s len = .ok (true, fs2) ∧ inodeOpen fs2 s = .ok (p, fs3) ∧
      HoldsArray p fs3 (List.replicate len.toNat 0) := by
  have hbound := room.1
  have hfirst : fs.freeMap.FreeRun r 1 :=
    ⟨by omega, fun k hk hlt => room.2 k hk (by omega)⟩
  obtain ⟨s, dev1, hrun1, hfree1, hsr, hsize1, h1c⟩ := freeMapAllocate_spec h hfirst
  -- the inode takes the first free sector, at most the first one of the run
  have hr : (fs.freeMap.setRange s 1 true).FreeRun (r + 1) (bytesToSectors len) := by
    refine ⟨by rw [Bitmap.setRange_bitCnt]; omega, fun k hk hlt => ?_⟩
    rw [Bitmap.setRange_bits, if_neg (by omega)]
    exact room.2 k (by omega) (by omega)
  obtain ⟨t, dev2, hrun2, hfree2, -, hsize2, h2c⟩ := freeMapAllocate_spec h1c hr
  have hs : s < fs.dev.size := by
    have := hfree1.1
    rw [h.mapSize] at this
    omega
  have hsbit : (fs.freeMap.setRange s 1 true).bits s = true := by
    simp [Bitmap.setRange]
  have hn := bytesToSectors_eq h0 h1
  have htin : t + bytesToSectors len ≤ fs.dev.size := by
    have := hfree2.1
    rw [h1c.mapSize] at this
    simp only [FsState.setDev_dev] at this
    omega
  have hsz1 : dev1.size = fs.dev.size := hsize1
  have hsz2 : dev2.size = fs.dev.size := hsize2.trans hsize1
  have ht : t < 2 ^ 32 := by
    have := fs.dev.size_lt
    omega
  obtain ⟨hstart, hlen⟩ := newInodeDisk_fields ht h0 h1
  -- the inode's own sector is not in the run: its bit was set before
  have hout : s < t ∨ t + bytesToSectors len ≤ s := by
    by_contra hc
    have := hfree2.2 s (by omega) (by omega)
    simp only [FsState.setDev_freeMap, FsState.setMap_freeMap, hsbit] at this
    simp at this
  obtain ⟨dev3, hrun3, hsize3, hzero, hother⟩ := zeroSectors_spec t
    (bytesToSectors len) (dev2.put s (newInodeDisk t len)) (by simp only [Device.put_size]; omega)
  have hdisk : dev3.disk s = newInodeDisk t len := by
    rw [hother s hout, Device.put_disk, Function.update_self]
  have hsize3' : dev3.size = fs.dev.size := hsize3.trans hsz2
  set fs2 := ((((fs.setMap (fs.freeMap.setRange s 1 true)).setDev dev1).setMap
    (((fs.setMap (fs.freeMap.setRange s 1 true)).setDev dev1).freeMap.setRange t
      (bytesToSectors len) true)).setDev dev2).setDev dev3 with hfs2
  have closed : findOpen fs2 s = none := by
    refine List.find?_eq_none.mpr fun p hp => ?_
    cases e : fs2.inodes p with
    | none => simp
    | some ino =>
        have hused := (h.opens p hp ino e).2
        have hclear := hfree1.2 s le_rfl (by omega)
        intro hc
        simp only [Option.any_some, beq_iff_eq] at hc
        rw [hc, hclear] at hused
        simp at hused
  refine ⟨s, _, fs2, fs2.nextAddr, fs2.pushInode s (newInodeDisk t len), hrun1, ?_, ?_,
    ⟨s, 1, false, 0, newInodeDisk t len⟩, Function.update_self .., rfl, ⟨?_, ?_⟩, ?_⟩
  · rw [inodeCreate, if_neg (by omega), hrun2, ok_bind]
    simp only [FsState.setDev_dev, blockWrite_ok _ (show s < dev2.size by omega), ok_bind, hrun3]
    rfl
  · simp only [inodeOpen, closed, blockRead_ok (show s < fs2.dev.size by rw [hfs2]; simp; omega),
      ok_bind]
    rw [show fs2.dev.disk s = newInodeDisk t len from hdisk]
    rfl
  · show 0 ≤ inodeLength (newInodeDisk t len)
    omega
  · show inodeStart _ + count _ ≤ dev3.size
    rw [count, hstart, hlen]
    omega
  · show _ = GrowArray.tabulate (inodeLength (newInodeDisk t len)).toNat
      (fileByte dev3.disk (newInodeDisk t len))
    rw [hlen, ← GrowArray.tabulate_const]
    refine GrowArray.tabulate_congr fun i hi => ?_
    rw [fileByte, view, hstart, hzero _ (by omega), byteAt_zeros]

end

end Pintos.Vm
