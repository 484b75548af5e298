import Pintos.FileSys.Mount
import Pintos.FileSys.Format
import Pintos.FileSys.Sectors

/-!
# The free map through every sequence of calls

`free_map_allocate` and `free_map_release` after `free_map_open`, with runs of any length.
The calls look at nothing but the free map and its file, so all that is asked of the device
is that the file is there (`MapOnDisk`): the sectors that are released may hold anything,
the file itself included.

**`freeMap_of_run`**: an allocation takes the first run of free sectors that is long enough,
or fails because there is none; a release frees its run; and the file can be read back into
the same free map after every call.
-/

namespace Pintos

open Lib Lib.Block

variable {use : ℕ → Option Use} {d : Sector} {fs fs' : FsState} {f q cnt t : ℕ}

/-! ## The file of the free map -/

/-- A device that has a file for its free map, before `free_map_open`. -/
structure MapOnDisk (use : ℕ → Option Use) (d : Sector) (fs : FsState) : Prop where
  mapSize : fs.freeMap.bitCnt = fs.dev.size
  nonempty : 0 < fs.dev.size
  inside : ∀ t u, use t = some u → t < fs.dev.size
  onDisk : fs.dev.disk freeMapSector = d
  tree : TreeOk use fs.dev.disk freeMapSector d
  length : inodeLength d = byteCnt fs.dev.size
  closed : findOpen fs freeMapSector = none

/-- The free map's file is open, and it holds the free map. -/
structure MapOpen (use : ℕ → Option Use) (d : Sector) (f q : ℕ) (fs : FsState) : Prop where
  mapFile : fs.freeMapFile = some f
  file : ∃ file, fs.files f = some file ∧ file.inode = q
  inode : ∃ ino, fs.inodes q = some ino ∧ ino.data = d ∧ ino.denyWriteCnt = 0
  nonempty : 0 < fs.dev.size
  inside : ∀ t u, use t = some u → t < fs.dev.size
  tree : TreeOk use fs.dev.disk freeMapSector d
  length : inodeLength d = byteCnt fs.dev.size
  synced : bitmapOfBytes fs.dev.size (fileByte fs.dev.disk d) = fs.freeMap

theorem MapOpen.mapSize (h : MapOpen use d f q fs) : fs.freeMap.bitCnt = fs.dev.size := by
  rw [← h.synced]
  rfl

/-- The bytes of a file determine the bitmap that is read from it. -/
theorem bitmapOfBytes_congr {n : ℕ} {file file' : ℕ → UInt8}
    (h : ∀ j < byteCnt n, file j = file' j) : bitmapOfBytes n file = bitmapOfBytes n file' := by
  refine congrArg₂ Bitmap.mk rfl (funext fun k => ?_)
  rcases lt_or_ge k n with hk | hk
  · have hj : k / 8 < byteCnt n := by
      unfold byteCnt elemCnt
      omega
    rw [h _ hj]
  · simp [not_lt.mpr hk]

/-- **Reading the file** through an open inode gives the bitmap in it. -/
theorem bitmapRead_tree {b : Bitmap} {ino : Inode} {file : File}
    (hb : b.bitCnt = fs.dev.size) (hpos : 0 < fs.dev.size)
    (inside : ∀ t u, use t = some u → t < fs.dev.size)
    (tree : TreeOk use fs.dev.disk freeMapSector d) (length : inodeLength d = byteCnt fs.dev.size)
    (hfile : fs.files f = some file) (hino : fs.inodes file.inode = some ino) (hdata : ino.data = d) :
    bitmapRead (fs.setMap b) f =
      .ok (true, fs.setMap (bitmapOfBytes fs.dev.size (fileByte fs.dev.disk d))) := by
  have hall : transferred (inodeLength d) (byteCnt fs.dev.size) 0 = byteCnt fs.dev.size := by
    unfold transferred
    rw [length]
    omega
  have hread : inodeReadAt (fs.setMap b) file.inode (byteCnt fs.dev.size) 0 =
      .ok ((List.range (byteCnt fs.dev.size)).map fun k => fileByte fs.dev.disk d (0 + k)) := by
    have hino' : (fs.setMap b).inodes file.inode = some ino := hino
    have hle : ¬ ((0 : ℕ) : ℤ) > inodeLength d := by
      rw [length]
      omega
    simp only [inodeReadAt, FsState.inode_ok hino', ok_bind, hdata, if_neg hle, Int.toNat_natCast]
    have := readLoop_tree tree inside (byteCnt fs.dev.size) 0
    rw [hall] at this
    exact this
  have hfile' : (fs.setMap b).files f = some file := hfile
  have hcnt : (fs.setMap b).freeMap.bitCnt = fs.dev.size := hb
  simp only [bitmapRead, hcnt, if_neg hpos.ne', FsState.file_ok hfile', ok_bind, hread]
  have hlen : ((List.range (byteCnt fs.dev.size)).map
      fun k => fileByte fs.dev.disk d (0 + k)).length = byteCnt fs.dev.size := by
    simp
  have hbytes : bitmapOfBytes fs.dev.size (fun k => ((List.range (byteCnt fs.dev.size)).map
      fun k => fileByte fs.dev.disk d (0 + k)).getD k (bitmapByte b k)) =
      bitmapOfBytes fs.dev.size (fileByte fs.dev.disk d) := by
    refine bitmapOfBytes_congr fun j hj => ?_
    rw [List.getD_eq_getElem _ _ (by rwa [hlen])]
    simp
  rw [hlen]
  show Except.ok (decide _, fs.setMap _) = _
  rw [decide_eq_true rfl]
  exact congrArg (fun b => Except.ok (true, fs.setMap b)) hbytes

/-- The file can be read back. -/
theorem MapOpen.readBack (h : MapOpen use d f q fs) {b : Bitmap} (hb : b.bitCnt = fs.dev.size) :
    bitmapRead (fs.setMap b) f = .ok (true, fs) := by
  obtain ⟨file, hfile, rfl⟩ := h.file
  obtain ⟨ino, hino, hdata, -⟩ := h.inode
  rw [bitmapRead_tree hb h.nonempty h.inside h.tree h.length hfile hino hdata, h.synced]
  rfl

/-- **`free_map_open`** opens the file and reads it. -/
theorem MapOnDisk.open (h : MapOnDisk use d fs) :
    ∃ f q fs', freeMapOpen fs = .ok fs' ∧ MapOpen use d f q fs' ∧ fs'.dev = fs.dev := by
  have hread : blockRead fs.dev freeMapSector = .ok d :=
    (blockRead_ok h.nonempty).trans (congrArg Except.ok h.onDisk)
  have hinode : inodeOpen fs freeMapSector =
      .ok (fs.nextAddr, fs.pushInode freeMapSector d) := by
    simp only [inodeOpen, h.closed, hread, ok_bind]
    rfl
  set f := (fs.pushInode freeMapSector d).nextAddr with hf
  set fs1 := ((fs.pushInode freeMapSector d).pushFile fs.nextAddr).setMapFile f with hfs1
  have hopen : openMapFile fs = .ok (f, fs1) := by
    simp only [openMapFile, hinode, ok_bind]
    rfl
  have hfile : fs1.files f = some ⟨fs.nextAddr, 0, false⟩ := Function.update_self ..
  have hino : fs1.inodes fs.nextAddr = some ⟨freeMapSector, 1, false, 0, d⟩ :=
    Function.update_self ..
  have hmap : fs1.freeMap.bitCnt = fs1.dev.size := h.mapSize
  have hbitmap := bitmapRead_tree hmap h.nonempty h.inside h.tree h.length hfile hino rfl
  refine ⟨f, fs.nextAddr, fs1.setMap (bitmapOfBytes fs.dev.size (fileByte fs.dev.disk d)), ?_,
    ⟨rfl, ⟨_, hfile, rfl⟩, ⟨_, hino, rfl, rfl⟩, h.nonempty, h.inside, h.tree, h.length, rfl⟩, rfl⟩
  have hself : fs1.setMap fs1.freeMap = fs1 := rfl
  rw [hself] at hbitmap
  simp only [freeMapOpen, hopen, ok_bind, hbitmap, if_true]
  rfl

/-! ## Allocating and releasing runs -/

/-- **A change of the free map is written through.** -/
theorem MapOpen.write (h : MapOpen use d f q fs) {b : Bitmap} (hb : b.bitCnt = fs.dev.size)
    (hmask : ∀ k, fs.dev.size ≤ k → b.bits k = false) :
    ∃ fs', bitmapWriteWith freeMapWriteAt (fs.setMap b) f = .ok (true, fs') ∧ fs'.freeMap = b ∧
      MapOpen use d f q fs' := by
  obtain ⟨file, hfile, rfl⟩ := h.file
  obtain ⟨ino, hino, hdata, hdeny⟩ := h.inode
  have hmap : (fs.setMap b).freeMap.bitCnt = (fs.setMap b).dev.size := hb
  obtain ⟨dev', hrun, hsize, -, tree', hbytes⟩ := mapWrite_tree
    (fun _ _ _ _ => .error (.assertFailed .lockAcquire)) hmap h.nonempty h.inside h.tree hino hdata
    hdeny h.length
  have hfile' : (fs.setMap b).files f = some file := hfile
  refine ⟨(fs.setMap b).setDev dev', ?_, rfl, ⟨h.mapFile, ⟨file, hfile, rfl⟩,
    ⟨ino, hino, hdata, hdeny⟩, ?_, ?_, tree', ?_, ?_⟩⟩
  · simp only [bitmapWriteWith, freeMapWriteAt, FsState.file_ok hfile', ok_bind, hrun, decide_true]
    rfl
  · exact hsize ▸ h.nonempty
  · intro t u hu
    exact hsize ▸ h.inside t u hu
  · have hsize : dev'.size = fs.dev.size := hsize
    rw [h.length, ← hsize]
    rfl
  · have hcnt : dev'.size = b.bitCnt := hsize.trans hb.symm
    show bitmapOfBytes dev'.size (fileByte dev'.disk d) = b
    rw [hcnt]
    refine congrArg₂ Bitmap.mk rfl (funext fun k => ?_)
    have := bitmapOfBytes_bitmapByte b k _ hbytes
    refine this.trans ?_
    rcases lt_or_ge k b.bitCnt with hk | hk
    · rw [decide_eq_true hk, Bool.true_and]
    · rw [decide_eq_false (not_lt.mpr hk), Bool.false_and, hmask k (hb ▸ hk)]

/-- A run inside the map leaves the bits past its end clear. -/
theorem MapOpen.masked (h : MapOpen use d f q fs) (hfit : t + cnt ≤ fs.freeMap.bitCnt)
    (value : Bool) (k : ℕ) (hk : fs.dev.size ≤ k) :
    (fs.freeMap.setRange t cnt value).bits k = false := by
  have hsize := h.mapSize
  rw [Bitmap.setRange_bits, if_neg (by omega), ← h.synced]
  simp [bitmapOfBytes, not_lt.mpr hk]

/-- **`free_map_allocate` takes the first run of `cnt` free sectors.** -/
theorem MapOpen.allocate (h : MapOpen use d f q fs) (cnt : ℕ) :
    (∃ t fs', fs.freeMap.FreeRun t cnt ∧ (∀ s, fs.freeMap.FreeRun s cnt → t ≤ s) ∧
      freeMapAllocate fs cnt = .ok (some t, fs') ∧
      fs'.freeMap = fs.freeMap.setRange t cnt true ∧ MapOpen use d f q fs') ∨
    ((∀ s, ¬ fs.freeMap.FreeRun s cnt) ∧ freeMapAllocate fs cnt = .ok (none, fs)) := by
  cases hscan : bitmapScan fs.freeMap 0 cnt false with
  | none =>
      refine .inr ⟨fun s hs => ?_, ?_⟩
      · obtain ⟨t, ht, -⟩ := bitmapScan_free hs
        rw [hscan] at ht
        cases ht
      · simp only [freeMapAllocate, freeMapAllocateWith, hscan]
  | some t =>
      have hrun := bitmapScan_some hscan
      obtain ⟨fs', hwrite, hmap, hopen⟩ := h.write (b := fs.freeMap.setRange t cnt true) h.mapSize
        (h.masked hrun.1 true)
      refine .inl ⟨t, fs', hrun, fun s hs => bitmapScan_first hscan hs, ?_, hmap, hopen⟩
      simp only [freeMapAllocate, freeMapAllocateWith, hscan]
      exact commitAllocation_ok h.mapFile hwrite

/-- **`free_map_release` frees its run.** -/
theorem MapOpen.release (h : MapOpen use d f q fs) (hfit : t + cnt ≤ fs.freeMap.bitCnt)
    (hused : ∀ k, t ≤ k → k < t + cnt → fs.freeMap.bits k = true) :
    ∃ fs', freeMapRelease fs t cnt = .ok fs' ∧ fs'.freeMap = fs.freeMap.setRange t cnt false ∧
      MapOpen use d f q fs' := by
  obtain ⟨fs', hwrite, hmap, hopen⟩ := h.write (b := fs.freeMap.setRange t cnt false) h.mapSize
    (h.masked hfit false)
  refine ⟨fs', ?_, hmap, hopen⟩
  have hrun : fs.freeMap.runHas t false cnt = false :=
    runHas_eq_false.mpr fun k hk hlt => by simp [hused k hk hlt]
  have hall : bitmapAll fs.freeMap t cnt = .ok true := by
    simp [bitmapAll, bitmapContains, hfit, hrun]
  simp only [freeMapRelease, freeMapReleaseWith, hall, ok_bind, if_true, bitmapSetMultiple, hfit,
    commitRelease, FsState.setMap_freeMapFile, h.mapFile, hwrite]
  rfl

/-! ## Runs -/

/-- A call. -/
inductive MapOp where
  | allocate (cnt : ℕ)
  | release (sector cnt : ℕ)

/-- `free_map_allocate (cnt, sectorp)`, with the value that `sectorp` points to. -/
def allocateTo (fs : FsState) (cnt sector : ℕ) : Except Fault (Bool × ℕ × FsState) := do
  match ← freeMapAllocate fs cnt with
  | (some t, fs) => return (true, t, fs)
  | (none, fs) => return (false, sector, fs)

/-- A user of the free map: the file system, the variable `sectorp` points to, and whether the
kernel has not panicked. -/
structure MapUser where
  fs : FsState
  sector : ℕ
  up : Bool

namespace MapUser

/-- The state after a call. -/
def after (u : MapUser) : MapOp → MapUser
  | .allocate cnt =>
      match allocateTo u.fs cnt u.sector with
      | .ok (_, sector, fs) => { u with fs, sector }
      | .error _ => { u with up := false }
  | .release t cnt =>
      match freeMapRelease u.fs t cnt with
      | .ok fs => { u with fs }
      | .error _ => { u with up := false }

/-- A release is of an allocated run. -/
def Allowed (u : MapUser) : MapOp → Prop
  | .allocate _ => True
  | .release t cnt => t + cnt ≤ u.fs.freeMap.bitCnt ∧
      ∀ k, t ≤ k → k < t + cnt → u.fs.freeMap.bits k = true

/-- What a call does. -/
def Answers (u : MapUser) : MapOp → Prop
  | .allocate cnt =>
      (∃ t fs', u.fs.freeMap.FreeRun t cnt ∧ (∀ s, u.fs.freeMap.FreeRun s cnt → t ≤ s) ∧
        allocateTo u.fs cnt u.sector = .ok (true, t, fs') ∧
        fs'.freeMap = u.fs.freeMap.setRange t cnt true) ∨
      ((∀ s, ¬ u.fs.freeMap.FreeRun s cnt) ∧
        allocateTo u.fs cnt u.sector = .ok (false, u.sector, u.fs))
  | .release t cnt => ∃ fs', freeMapRelease u.fs t cnt = .ok fs' ∧
      fs'.freeMap = u.fs.freeMap.setRange t cnt false

/-- The file holds the free map: a fresh bitmap, read from it, is the one in memory. -/
def Kept (f : ℕ) (u : MapUser) : Prop :=
  u.up = true ∧ ∀ junk,
    bitmapRead (u.fs.setMap (bitmapCreate u.fs.dev.size junk)) f = .ok (true, u.fs)

end MapUser

/-- **A call does what it should, and the file stays in step.** -/
theorem MapOpen.step {u : MapUser} (h : MapOpen use d f q u.fs) (op : MapOp) (hop : u.Allowed op) :
    u.Answers op ∧ MapOpen use d f q (u.after op).fs ∧ (u.after op).up = u.up := by
  cases op with
  | allocate cnt =>
      rcases h.allocate cnt with ⟨t, fs', hrun, hfirst, e, hmap, hopen⟩ | ⟨hnone, e⟩
      · have e' : allocateTo u.fs cnt u.sector = .ok (true, t, fs') := by
          rw [allocateTo, e]
          rfl
        refine ⟨.inl ⟨t, fs', hrun, hfirst, e', hmap⟩, ?_, ?_⟩
        · rw [MapUser.after, e']
          exact hopen
        · rw [MapUser.after, e']
      · have e' : allocateTo u.fs cnt u.sector = .ok (false, u.sector, u.fs) := by
          rw [allocateTo, e]
          rfl
        refine ⟨.inr ⟨hnone, e'⟩, ?_, ?_⟩
        · rw [MapUser.after, e']
          exact h
        · rw [MapUser.after, e']
  | release t cnt =>
      obtain ⟨fs', e, hmap, hopen⟩ := h.release hop.1 hop.2
      refine ⟨⟨fs', e, hmap⟩, ?_, ?_⟩
      · rw [MapUser.after, e]
        exact hopen
      · rw [MapUser.after, e]

/-- **The free map after every sequence of calls**, from `free_map_open` on. -/
theorem freeMap_of_run (h : MapOnDisk use d fs) :
    ∃ f fs', freeMapOpen fs = .ok fs' ∧ fs'.freeMapFile = some f ∧ fs'.dev.size = fs.dev.size ∧
      ∀ (sector : ℕ) (ops : List MapOp),
        Along MapUser.after MapUser.Allowed ⟨fs', sector, true⟩ ops →
        Along MapUser.after MapUser.Answers ⟨fs', sector, true⟩ ops ∧
          Always MapUser.after (MapUser.Kept f) ⟨fs', sector, true⟩ ops := by
  obtain ⟨f, q, fs', e, hopen, hdev⟩ := h.open
  refine ⟨f, fs', e, hopen.mapFile, by rw [hdev], fun sector ops allowed => ?_⟩
  have hinv : Always MapUser.after (fun u => MapOpen use d f q u.fs ∧ u.up = true)
      ⟨fs', sector, true⟩ ops := by
    refine Always.of_along (fun u op hu hop => ?_) ops _ ⟨hopen, rfl⟩ allowed
    obtain ⟨-, h1, h2⟩ := hu.1.step op hop
    exact ⟨h1, h2.trans hu.2⟩
  refine ⟨Along.of_always_before (fun u op hu hop => (hu.1.step op hop).1) ops _ hinv allowed, ?_⟩
  exact Always.mono (fun u hu => ⟨hu.2, fun junk => hu.1.readBack rfl⟩) ops _ hinv

/-- The device of a healthy file system has a file for its free map. -/
theorem FsOk.mapOnDisk {live : ℕ → Prop} {node : ℕ → Sector} {held : List ℕ} {ent : ℕ → DirEntry}
    (h : FsOk use live node held ent cnt fs) (junk : ℕ → Bool) :
    MapOnDisk use (node freeMapSector) (freeMapInit fs.dev junk) := by
  obtain ⟨fm, q, -, map, -⟩ := h.mapFile
  exact ⟨rfl, map.nonempty, h.sound.core.inside, h.sound.synced _ map.isLive,
    (h.sound.core.tree _ map.isLive).2, map.length, rfl⟩

instance (u : MapUser) (op : MapOp) : Decidable (u.Allowed op) :=
  match op with
  | .allocate _ => .isTrue trivial
  | .release t cnt => inferInstanceAs (Decidable (t + cnt ≤ u.fs.freeMap.bitCnt ∧
      ∀ k, t ≤ k → k < t + cnt → u.fs.freeMap.bits k = true))

/-- On a formatted device of 16 sectors. -/
theorem freeMap_of_small_run : ∃ fs0 fs, filesysInit smallDevice (fun _ => false) true = .ok fs0 ∧
    freeMapOpen (freeMapInit fs0.dev fun _ => true) = .ok fs ∧
    Along MapUser.after MapUser.Answers ⟨fs, 0, true⟩
      [.allocate 3, .release 4 2, .allocate 20] := by
  have hrun : okWith (filesysInit smallDevice (fun _ => false) true) (fun fs0 =>
      okWith (freeMapOpen (freeMapInit fs0.dev fun _ => true)) fun fs =>
        decide (Along MapUser.after MapUser.Allowed ⟨fs, 0, true⟩
          [.allocate 3, .release 4 2, .allocate 20])) = true := by
    decide +kernel
  have hformat : FormatOk smallDevice := by decide
  obtain ⟨fs0, hinit, hrun⟩ := okWith_iff.mp hrun
  obtain ⟨fs, hopen, allowed⟩ := okWith_iff.mp hrun
  obtain ⟨fs1, use, live, node, ent, cnt, hinit', ok⟩ :=
    filesysInit_format hformat fun _ => false
  rw [hinit, Except.ok.injEq] at hinit'
  subst hinit'
  obtain ⟨f, fs', hopen', -, -, hall⟩ := freeMap_of_run (ok.mapOnDisk fun _ => true)
  rw [hopen, Except.ok.injEq] at hopen'
  subst hopen'
  exact ⟨fs0, fs, hinit, hopen, (hall 0 _ (of_decide_eq_true allowed)).1⟩

end Pintos
