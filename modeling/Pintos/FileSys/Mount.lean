import Pintos.FileSys.CreateRemove

/-!
# Mounting and shutting down

`free_map_open` reads the free map from its file, `free_map_close` closes the file.
In between `free_map_file` does not lead to an open file, and after a restart the
free map in memory is a fresh one; the invariant then holds of the state in which
the file is taken as not open and the free map as the one on disk (`withMap`).

* `freeMapOpen_spec` — mounting such a state gives a sound one.
* `freeMapClose_spec` — shutting down a healthy one leaves such a state.
* `FsOk.remount` — a healthy file system, shut down and mounted again after a
  restart, has the same inodes, the same entries and the same free map.
-/

namespace Pintos

open Lib Lib.Block

/-- The state with another free map and another `free_map_file`. -/
@[simps] def FsState.withMap (fs : FsState) (file : Option ℕ) (freeMap : Bitmap) : FsState :=
  { fs with freeMapFile := file, freeMap := freeMap }

section

variable {use : ℕ → Option Use} {live : ℕ → Prop} {node : ℕ → Sector} {held : List ℕ}
  {ent : ℕ → DirEntry} {cnt : ℕ} {fs fs' : FsState} {p s : ℕ}

/-- `inode_open` does not look at the free map. -/
theorem inodeOpen_withMap {m : Option ℕ} {b : Bitmap}
    (h : inodeOpen (fs.withMap m b) s = .ok (p, fs')) :
    inodeOpen fs s = .ok (p, fs'.withMap fs.freeMapFile fs.freeMap) := by
  have hfind : findOpen (fs.withMap m b) s = findOpen fs s := rfl
  rcases inodeOpen_cases h with ⟨ino, hf, hino, rfl⟩ | ⟨hf, hp, data, hfs⟩
  · rw [hfind] at hf
    have hino' : fs.inodes p = some ino := hino
    simp only [inodeOpen, hf, inodeReopen, FsState.inode_ok hino', ok_bind]
    rfl
  · rw [hfind] at hf
    simp only [inodeOpen, hfind, hf, FsState.withMap_dev] at h ⊢
    cases hread : blockRead fs.dev s with
    | error e => simp [hread] at h
    | ok d =>
        rw [hread, ok_bind] at h
        cases h
        rfl

/-- Nor does `inode_close` of an inode that is not removed. -/
theorem inodeClose_withMap {m : Option ℕ} {b : Bitmap} {ino : Inode} (hino : fs.inodes p = some ino)
    (hrem : ino.removed = false) (h : inodeClose (fs.withMap m b) p = .ok fs') :
    inodeClose fs p = .ok (fs'.withMap fs.freeMapFile fs.freeMap) := by
  have hino' : (fs.withMap m b).inodes p = some ino := hino
  simp only [inodeClose, FsState.inode_ok hino', ok_bind, inodeFree, hrem, Bool.false_eq_true,
    if_false] at h
  simp only [inodeClose, FsState.inode_ok hino, ok_bind, inodeFree, hrem, Bool.false_eq_true,
    if_false]
  split at h <;> cases h <;> simp_all <;> rfl

/-! ## Mounting -/

/-- **`free_map_open`** reads back the free map `b` that is on disk. -/
theorem freeMapOpen_spec {b : Bitmap} (sound : Sound use live node [] (fs.withMap none b))
    (hlive : live freeMapSector)
    (hlen : inodeLength (node freeMapSector) = byteCnt fs.dev.size) (hpos : 0 < fs.dev.size)
    (hcnt : fs.freeMap.bitCnt = fs.dev.size)
    (hmap : MapSynced node (fs.withMap none b))
    (deny : ∀ p ∈ fs.openInodes, ∀ ino, fs.inodes p = some ino → ino.sector = freeMapSector →
      ino.denyWriteCnt = 0) :
    ∃ f q fs', freeMapOpen fs = .ok fs' ∧ Sound use live node [] fs' ∧
      fs'.freeMapFile = some f ∧ fs'.dev = fs.dev ∧ fs'.freeMap.bitCnt = fs.dev.size ∧
      (∀ k < fs.dev.size, fs'.freeMap.bits k = b.bits k) ∧
      fs'.files = Function.update fs.files f (some ⟨q, 0, false⟩) ∧ KeptMarks fs fs' := by
  obtain ⟨p, fs1, hrun1, sound1, o1, same1, -⟩ := inodeOpen_spec sound hlive
  have hrun1' := inodeOpen_withMap hrun1
  have sound2 := sound1.pushFile
  have o2 : OpenAt freeMapSector p (fs1.pushFile p) := ⟨o1.listed, o1.isOpen, o1.alone⟩
  obtain ⟨-, tree⟩ := sound1.core.tree _ hlive
  have hdev : fs1.dev = fs.dev := same1.dev
  have hle := tree.len_le
  rw [hlen] at hle
  set f := fs1.nextAddr with hf
  set fs2 := ((fs1.withMap fs.freeMapFile fs.freeMap).pushFile p).setMapFile f with hfs2
  set bytes := (List.range (byteCnt fs.dev.size)).map fun k =>
    fileByte fs.dev.disk (node freeMapSector) (0 + k) with hbytes
  have hread : inodeReadAt fs2 p (byteCnt fs.dev.size) 0 = .ok bytes := by
    have hall : transferred (inodeLength (node freeMapSector)) (byteCnt fs.dev.size : ℤ).toNat 0 =
        byteCnt fs.dev.size := by
      unfold transferred
      rw [hlen]
      omega
    have := inodeReadAt_spec sound2.core hlive o2 (byteCnt fs.dev.size) 0
    rw [hall, FsState.pushFile_dev, hdev] at this
    exact this
  set b' := bitmapOfBytes fs.dev.size fun k => bytes.getD k (bitmapByte fs.freeMap k) with hb'
  have hbits : ∀ k < fs.dev.size, b'.bits k = b.bits k := by
    intro k hk
    have hj : k / 8 < byteCnt fs.dev.size := by
      unfold byteCnt elemCnt
      omega
    refine Eq.trans ?_ (hmap k hk)
    simp only [hb', bitmapOfBytes, FsState.withMap_dev]
    rw [List.getD_eq_getElem _ _ (by simpa [hbytes] using hj)]
    simp [hbytes]
  have hfile : fs2.files f = some ⟨p, 0, false⟩ := Function.update_self ..
  have hmapfile : MapFile live node (fs2.setMap b') f p := by
    obtain ⟨ino, hino, hsec⟩ := o1.isOpen
    refine ⟨⟨_, hfile, rfl⟩, o1.listed, ⟨ino, hino, hsec, ?_⟩, hlive, ?_, ?_⟩
    · rcases same1.kept p o1.listed ino hino with h | ⟨hp, a, ha, h1, -, h3⟩
      · exact h.2
      · rw [← h3]
        exact deny p hp a ha (h1.trans hsec)
    · exact hlen.trans (by rw [← hdev]; rfl)
    · exact hdev ▸ hpos
  refine ⟨f, p, fs2.setMap b', ?_, ⟨⟨?_, ?_, fun t u hu => ?_, sound2.core.tree, sound2.core.opens⟩,
    .inr ⟨f, p, rfl, hmapfile, ?_⟩, ?_, sound2.synced⟩, rfl, hdev, rfl, hbits, ?_, ?_⟩
  · have hne : ¬ fs.freeMap.bitCnt = 0 := by omega
    have hopen : openMapFile fs = .ok (f, fs2) := by
      simp only [openMapFile, hrun1', ok_bind]
      rfl
    have hbitmap : bitmapRead fs2 f = .ok (true, fs2.setMap b') := by
      have hcnt2 : fs2.freeMap.bitCnt = fs.dev.size := hcnt
      simp only [bitmapRead, hcnt2, show ¬ fs.dev.size = 0 by omega, if_false,
        FsState.file_ok hfile, ok_bind, hread]
      simp [hbytes, hb']
      rfl
    simp only [freeMapOpen, hopen, ok_bind, hbitmap, if_true]
    rfl
  · exact congrArg Device.size hdev.symm
  · exact (hbits 0 hpos).trans sound.core.zeroUsed
  · obtain ⟨h1, h2⟩ := sound2.core.used t u hu
    have h1' : t < fs.dev.size := hdev ▸ h1
    have h2' : fs1.freeMap.bits t = true := h2
    rw [same1.freeMap] at h2'
    exact ⟨h1, (hbits t h1').trans h2'⟩
  · intro k hk
    have hk' : k < fs.dev.size := hdev ▸ hk
    refine Eq.trans ?_ (hbits k hk').symm
    have := hmap k hk'
    rw [FsState.withMap_dev] at this
    show (bitmapOfBytes fs1.dev.size (fileByte fs1.dev.disk (node freeMapSector))).bits k = b.bits k
    rw [hdev]
    exact this
  · exact sound2.heap.sameHeap ⟨rfl, rfl, rfl, rfl⟩ fun _ h => h
  · show Function.update fs1.files f _ = _
    rw [same1.files]
    rfl
  · exact same1.keptMarks

/-! ## Shutting down -/

theorem FsState.withMap_self {m : Option ℕ} {b : Bitmap} (hm : fs.freeMapFile = m)
    (hb : fs.freeMap = b) : fs.withMap m b = fs := by
  subst hm hb
  rfl

/-- **`free_map_close`** of a healthy file system. -/
theorem FsOk.freeMapClose (h : FsOk use live node [] ent cnt fs) :
    ∃ fs', freeMapClose fs = .ok fs' ∧ Sound use live node [] (fs'.withMap none fs.freeMap) ∧
      fs'.dev = fs.dev ∧ fs'.freeMap = fs.freeMap ∧ KeptMarks fs fs' ∧
      (∀ p ∈ fs'.openInodes, ∀ a, fs'.inodes p = some a → a.sector = freeMapSector →
        a.denyWriteCnt = 0) ∧
      ∀ g, fs'.files g = if fs.freeMapFile = some g then none else fs.files g := by
  obtain ⟨fm, q, hfm, map, -⟩ := h.mapFile
  obtain ⟨mf, hmf, rfl⟩ := map.file
  obtain ⟨ino, hino, hsec, hdeny⟩ := map.inode
  have hmark : mf.denyWrite = false := by
    by_contra hc
    have hmem : fm ∈ deniersOn fs mf.inode :=
      mem_deniersOn.mpr ⟨(h.sound.heap.file fm mf hmf).1, mf, hmf, rfl, by simpa using hc⟩
    have h1 := h.sound.heap.deny _ map.listed ino hino
    have h2 := Finset.card_pos.mpr ⟨fm, hmem⟩
    omega
  have hrem : ino.removed = false := by
    by_contra hc
    exact (h.root.removed _ map.listed ino hino (by simpa using hc)).1 hsec
  have hallow : Pintos.fileAllowWrite fs fm = .ok fs := by
    simp only [Pintos.fileAllowWrite, FsState.file_ok hmf, ok_bind, hmark, Bool.false_eq_true, if_false]
    rfl
  have sound1 : Sound use live node [mf.inode] ((fs.freeFile fm).withMap none fs.freeMap) :=
    ⟨h.sound.core.ofFiles rfl rfl rfl rfl, .inl rfl,
      (h.sound.heap.freeFile hmf hmark).sameHeap ⟨rfl, rfl, rfl, rfl⟩ fun _ hx => hx,
      h.sound.synced⟩
  obtain ⟨fs2, hrun, sound2, same, -⟩ :=
    inodeClose_spec sound1 hino (fun _ => hrem) fun hne => absurd rfl hne
  have hino1 : (fs.freeFile fm).inodes mf.inode = some ino := hino
  have hrun' := inodeClose_withMap hino1 hrem hrun
  refine ⟨fs2.withMap (fs.freeFile fm).freeMapFile (fs.freeFile fm).freeMap, ?_, ?_, same.dev, rfl,
    same.keptMarks, fun p hp a ha hs => ?_, fun g => ?_⟩
  · simp only [Pintos.freeMapClose, hfm, Pintos.fileClose, hallow, ok_bind, FsState.file_ok hmf]
    exact hrun'
  · have e : fs2.withMap none fs.freeMap = fs2 :=
      FsState.withMap_self same.freeMapFile same.freeMap
    have e' : (fs2.withMap (fs.freeFile fm).freeMapFile (fs.freeFile fm).freeMap).withMap none
        fs.freeMap = fs2.withMap none fs.freeMap := rfl
    rw [e', e]
    exact sound2
  · rcases same.kept p hp a ha with h1 | ⟨hp', b, hb, h1, -, h2⟩
    · exact h1.2
    · have e := h.sound.heap.unique p hp' _ map.listed b ino hb hino (h1.trans (hs.trans hsec.symm))
      have hb' : fs.inodes p = some b := hb
      rw [e, hino, Option.some.injEq] at hb'
      rw [← h2, ← hb', hdeny]
  · have : fs2.files g = Function.update fs.files fm none g := congrFun same.files g
    rw [hfm]
    by_cases e : g = fm
    · rw [if_pos (by rw [e])]
      simpa [e] using this
    · rw [if_neg (by simpa using Ne.symm e)]
      rwa [Function.update_of_ne e] at this

/-- A mounted state is healthy if what is on disk is. -/
theorem FsOk.ofMount {fs0 : FsState} {f q : ℕ} (h : FsOk use live node [] ent cnt fs)
    (sound : Sound use live node [] fs') (hmap : fs'.freeMapFile = some f)
    (hdev : fs'.dev = fs.dev) (hnone : ∀ g, fs0.files g = none)
    (hfiles : fs'.files = Function.update fs0.files f (some ⟨q, 0, false⟩))
    (root : RootOk live ent cnt fs') : FsOk use live node [] ent cnt fs' where
  sound := sound
  mapOpen := by simp [hmap]
  rootLive := h.rootLive
  dir := hdev ▸ h.dir
  root := root
  mapPrivate g file hg hne := by
    have e : g ≠ f := fun e => hne (e ▸ hmap)
    rw [hfiles, Function.update_of_ne e, hnone g] at hg
    simp at hg

/-- **A restart.**  A healthy file system that is shut down and mounted again from the
same device is healthy, with the same inodes, entries and free map. -/
theorem FsOk.remount (h : FsOk use live node [] ent cnt fs) (junk : ℕ → Bool) :
    ∃ fs1 fs2, filesysDone fs = .ok fs1 ∧ fs1.dev = fs.dev ∧
      filesysInit fs1.dev junk false = .ok fs2 ∧ FsOk use live node [] ent cnt fs2 ∧
      fs2.dev = fs.dev ∧ fs2.freeMap.bitCnt = fs.freeMap.bitCnt ∧
      ∀ k < fs.freeMap.bitCnt, fs2.freeMap.bits k = fs.freeMap.bits k := by
  obtain ⟨fs1, hdone, -, hdev1, -, -, -, -⟩ := h.freeMapClose
  obtain ⟨fm, q, hfm, map, hsync⟩ := h.mapFile
  have core := h.sound.core
  -- the machine has restarted: nothing is open, the free map is the one on disk
  have sound0 : Sound use live node [] ((freeMapInit fs.dev junk).withMap none fs.freeMap) := by
    refine ⟨⟨core.mapSize, core.zeroUsed, core.used, core.tree, fun p hp => ?_⟩, .inl rfl,
      ⟨List.nodup_nil, fun p hp => ?_, fun p hp => ?_, fun p hp => ?_, fun g file hg => ?_,
        fun p hp => ?_, fun p hp => ?_, fun p hp => ?_⟩, h.sound.synced⟩
    all_goals first | exact absurd hp List.not_mem_nil | simp [freeMapInit] at hg
  obtain ⟨f, r, fs2, hopen, sound2, hmap2, hdev2, hcnt2, hbits, hfiles, kept⟩ :=
    freeMapOpen_spec sound0 map.isLive map.length map.nonempty rfl hsync
      (fun p hp => absurd hp List.not_mem_nil)
  have root0 : RootOk live ent cnt (freeMapInit fs.dev junk) :=
    ⟨h.root.entries, h.root.dots, h.root.distinct, fun p hp => absurd hp List.not_mem_nil,
      fun p hp => absurd hp List.not_mem_nil⟩
  refine ⟨fs1, fs2, hdone, hdev1, ?_, h.ofMount sound2 hmap2 hdev2 (fun _ => rfl) hfiles
    (root0.congr kept fun j hj hu => (h.root.entries j hj hu).1), hdev2,
    hcnt2.trans core.mapSize.symm, fun k hk => hbits k (core.mapSize ▸ hk)⟩
  rw [hdev1]
  exact hopen

end

end Pintos
