import Pintos.FileSys.Mount

/-!
# Formatting

`filesys_init (true)` on a device that is large enough makes a healthy file system
(`filesysInit_format`): the free map and the root directory are created, the latter
with its entries `"."` and `".."`, and the free map is read back.
-/

namespace Pintos

open Lib Lib.Block

/-- The sectors `do_format` allocates beside the two inodes. -/
def formatDemand (size : ℕ) : ℕ :=
  demand (bytesToSectors (byteCnt size)) + demand (bytesToSectors 320)

/-- A device that can be formatted: the free map fits a file, and the sectors suffice. -/
def FormatOk (dev : Device) : Prop :=
  byteCnt dev.size ≤ 8516608 ∧ 2 + formatDemand dev.size ≤ dev.size

instance (dev : Device) : Decidable (FormatOk dev) := inferInstanceAs (Decidable (_ ∧ _))

/-- The purposes before formatting: the two inodes. -/
def initialUse (t : ℕ) : Option Use :=
  if t = freeMapSector ∨ t = rootDirSector then some .inode else none

section

variable {dev : Device} {junk : ℕ → Bool}

theorem freeSectors_create (n : ℕ) (junk : ℕ → Bool) : freeSectors (bitmapCreate n junk) = n := by
  have hall : ((Finset.range n).filter fun k => (bitmapCreate n junk).bits k = false) =
      Finset.range n := by
    refine Finset.filter_true_of_mem fun k hk => ?_
    simp [bitmapCreate, Finset.mem_range.mp hk]
  rw [freeSectors]
  show ((Finset.range n).filter fun k => (bitmapCreate n junk).bits k = false).card = n
  rw [hall, Finset.card_range]

/-- All sectors but the two inodes' are free at first. -/
theorem freeSectors_init (h : 2 ≤ dev.size) :
    freeSectors (freeMapInit dev junk).freeMap + 2 = dev.size := by
  have run0 : (bitmapCreate dev.size junk).FreeRun freeMapSector 1 := by
    refine ⟨?_, fun k hk hlt => ?_⟩
    · show 0 + 1 ≤ dev.size
      omega
    · simp only [freeMapSector] at hk hlt
      simp [bitmapCreate, show k < dev.size by omega]
  have run1 : (bitmapMark (bitmapCreate dev.size junk) freeMapSector).FreeRun rootDirSector 1 := by
    refine ⟨h, fun k hk hlt => ?_⟩
    simp only [rootDirSector] at hk hlt
    simp only [bitmapMark, freeMapSector, Bitmap.setRange_bits, bitmapCreate]
    rw [if_neg (by omega), if_pos (by omega)]
  have h0 := freeSectors_mark run0
  have h1 := freeSectors_mark run1
  rw [freeSectors_create] at h0
  show freeSectors (bitmapMark (bitmapMark (bitmapCreate dev.size junk) freeMapSector)
    rootDirSector) + 2 = dev.size
  have e1 : freeSectors (bitmapMark (bitmapMark (bitmapCreate dev.size junk) freeMapSector)
      rootDirSector) + 1 = freeSectors (bitmapMark (bitmapCreate dev.size junk) freeMapSector) := h1
  have e0 : freeSectors (bitmapMark (bitmapCreate dev.size junk) freeMapSector) + 1 = dev.size := h0
  omega

/-- Before formatting no inode is live and nothing is open. -/
theorem freeMapInit_sound (h : 2 ≤ dev.size) (junk : ℕ → Bool) :
    Sound initialUse (fun _ => False) (fun _ => zeros) [] (freeMapInit dev junk) := by
  refine ⟨⟨rfl, ?_, fun t u hu => ?_, fun s hs => hs.elim, fun p hp => ?_⟩, .inl rfl,
    ⟨List.nodup_nil, fun p hp => ?_, fun p hp => ?_, fun p hp => ?_, fun g file hg => ?_,
      fun p hp => ?_, fun p hp => ?_, fun p hp => ?_⟩, fun s hs => hs.elim⟩
  · simp [freeMapInit, bitmapMark, Bitmap.setRange_bits, freeMapSector]
  · unfold initialUse at hu
    split at hu
    · next e =>
        have ht : t < dev.size := by
          rcases e with rfl | rfl <;> simp [freeMapSector, rootDirSector] <;> omega
        refine ⟨ht, ?_⟩
        rcases e with rfl | rfl <;>
          simp [freeMapInit, bitmapMark, Bitmap.setRange_bits, freeMapSector, rootDirSector]
    · cases hu
  all_goals first | exact absurd hp List.not_mem_nil | simp [freeMapInit] at hg

/-- Nothing is open but the free map's file. -/
structure OnlyMap (f : ℕ) (fs : FsState) : Prop where
  mapFile : fs.freeMapFile = some f
  files : ∀ g, g ≠ f → fs.files g = none
  inodes : ∀ p ∈ fs.openInodes, ∀ ino, fs.inodes p = some ino →
    ino.removed = false ∧ ino.denyWriteCnt = 0

/-- **`free_map_create`**: the free map's file is created, opened and written. -/
theorem freeMapCreate_spec (ok : FormatOk dev) (junk : ℕ → Bool) :
    ∃ use node f fs, freeMapCreate (freeMapInit dev junk) = .ok fs ∧
      Sound use (fun x => x = freeMapSector) node [] fs ∧ use rootDirSector = some .inode ∧
      OnlyMap f fs ∧
      freeSectors fs.freeMap + 2 + demand (bytesToSectors (byteCnt dev.size)) = dev.size := by
  obtain ⟨hmax, hroom⟩ := ok
  unfold formatDemand at hroom
  have hinit : freeSectors (freeMapInit dev junk).freeMap + 2 = dev.size :=
    freeSectors_init (by omega)
  have sound0 := freeMapInit_sound (show 2 ≤ dev.size by omega) junk
  have hmax' : (byteCnt dev.size : ℤ) ≤ 8516608 := by exact_mod_cast hmax
  obtain ⟨use, d, fs1, hrun1, sound1, created, hlen, -, hfree⟩ := sound0.create (s := freeMapSector)
    id rfl (fun p hp => absurd hp List.not_mem_nil) (Int.natCast_nonneg _) hmax' (by omega) false
  have hlive : (fun x => False ∨ x = freeMapSector) freeMapSector := .inr rfl
  obtain ⟨p, fs2, hrun2, sound2, o, same, hnew⟩ := inodeOpen_spec sound1 hlive
  have hnone : fs1.openInodes = [] := by
    rw [created.rest]
    rfl
  have hino : fs2.inodes p = some ⟨freeMapSector, 1, false, 0, d⟩ := by
    have := hnew (by
      rw [hnone]
      exact fun q hq => absurd hq List.not_mem_nil)
    rwa [Function.update_self] at this
  have hfiles : fs2.files = fun _ => none := by
    rw [same.files, created.rest]
    rfl
  have hsize : fs2.dev.size = dev.size := by rw [same.dev, created.size]; rfl
  have sound3 := sound2.pushFile
  set f := fs2.nextAddr
  set fs4 := (fs2.pushFile p).setMapFile f with hfs4
  have core4 : Core use (fun x => False ∨ x = freeMapSector)
      (Function.update (fun _ => zeros) freeMapSector d) fs4 :=
    sound3.core.ofFiles rfl rfl rfl rfl
  have map4 : MapFile (fun x => False ∨ x = freeMapSector)
      (Function.update (fun _ => zeros) freeMapSector d) fs4 f p := by
    refine ⟨⟨_, Function.update_self .., rfl⟩, o.listed, ⟨_, hino, rfl, rfl⟩, hlive, ?_, ?_⟩
    · rw [Function.update_self, hlen]
      exact congrArg (fun n : ℕ => (byteCnt n : ℤ)) hsize.symm
    · show 0 < fs2.dev.size
      omega
  obtain ⟨dev', hwrite, hdev, only, core5, synced⟩ := bitmapWrite_spec extendFile core4 map4
  have e : (fun x => False ∨ x = freeMapSector) = fun x => x = freeMapSector := by
    funext x
    simp
  rw [e] at core5 map4 sound3
  refine ⟨use, _, f, fs4.setDev dev', ?_, ⟨core5, .inr ⟨f, p, rfl, ⟨map4.file, map4.listed,
    map4.inode, map4.isLive, hdev ▸ map4.length, hdev ▸ map4.nonempty⟩, synced⟩,
    sound3.heap.sameHeap ⟨rfl, rfl, rfl, rfl⟩ fun _ hx => hx, fun x hx => ?_⟩,
    created.mono _ _ (by simp [initialUse]), ⟨rfl, fun g hg => ?_, fun q hq a ha => ?_⟩, ?_⟩
  · have hopen : openMapFile fs1 = .ok (f, fs4) := by
      simp only [openMapFile, hrun2, ok_bind]
      rfl
    have hcnt : (freeMapInit dev junk).freeMap.bitCnt = dev.size := rfl
    simp only [freeMapCreate, hcnt, hrun1, ok_bind, if_true, hopen]
    have hwrite' : bitmapWriteWith inodeWriteAt fs4 f = .ok (true, fs4.setDev dev') := hwrite
    rw [hwrite']
    rfl
  · rw [show x = freeMapSector from hx]
    refine (only _ fun i hi => ?_).trans (sound3.synced _ rfl)
    rw [(core4.tree _ hlive).1] at hi
    simp at hi
  · show Function.update fs2.files f _ g = none
    rw [Function.update_of_ne hg, hfiles]
  · have hq' : q = p := o.alone q hq a ha (by
      obtain ⟨b, hb, hs⟩ := sound3.heap.listed q hq
      have hb' : fs2.inodes q = some b := hb
      have ha' : fs2.inodes q = some a := ha
      rw [ha', Option.some.injEq] at hb'
      rw [hb']
      exact hs)
    have ha' : fs2.inodes q = some a := ha
    rw [hq', hino, Option.some.injEq] at ha'
    simp [← ha']
  · show freeSectors fs2.freeMap + 2 + _ = _
    rw [same.freeMap]
    omega

end

/-! ## The root directory -/

/-- The entries of a new directory. -/
def noEntries (_ : ℕ) : DirEntry := zeros

theorem inUse_noEntries (j : ℕ) : (noEntries j).inUse = false := by
  simp [DirEntry.inUse, noEntries]

/-- A directory with a free entry has room. -/
theorem DirAt.room {ent : ℕ → DirEntry} {cnt k : ℕ} {disk : ℕ → Sector} {d : Sector}
    (dir : DirAt ent cnt disk d) (hk : k < cnt) (hu : (ent k).inUse = false) (free : ℕ) :
    DirRoom disk d free := by
  refine .inl ⟨k, ?_, ?_⟩
  · rw [dir.length]
    omega
  · rw [dir.entries k hk]
    exact hu

section

variable {use : ℕ → Option Use} {live : ℕ → Prop} {node : ℕ → Sector} {held : List ℕ}
  {ent : ℕ → DirEntry} {cnt : ℕ} {fs : FsState} {p f : ℕ}

/-- Adding one of the root directory's own names. -/
theorem FsOk.addDots (h : FsOk use live node held ent cnt fs) (o : OpenAt rootDirSector p fs)
    {name : CString} (hname : name = selfPath ∨ name = parentPath)
    (hnew : ∀ i < cnt, ¬ Matches ent name i) {k : ℕ} (hk : k < cnt)
    (hfree : (ent k).inUse = false) :
    ∃ use' node' j e fs', dirAdd fs p name rootDirSector = .ok (true, fs') ∧
      FsOk use' live node' held (Function.update ent j e) (max cnt (j + 1)) fs' ∧
      e.name = name ∧ j ≤ cnt ∧ OpenAt rootDirSector p fs' ∧ fs'.files = fs.files ∧
      fs'.freeMapFile = fs.freeMapFile := by
  have hz : ∀ c ∈ name, c ≠ 0 := by
    rcases hname with rfl | rfl <;> simp [selfPath, parentPath]
  have deny : ∀ ino, fs.inodes p = some ino → ino.denyWriteCnt = 0 := by
    intro ino hino
    obtain ⟨a, ha, hsec⟩ := o.isOpen
    rw [hino, Option.some.injEq] at ha
    exact h.root.writable p o.listed ino hino (ha ▸ hsec)
  have hroot0 : rootDirSector ≠ freeMapSector := by simp [rootDirSector, freeMapSector]
  rcases dirAdd_spec h.sound h.rootLive hroot0 o deny h.dir hz
    (show rootDirSector < 2 ^ 32 by simp [rootDirSector]) (h.dir.room hk hfree _) with
    ⟨hbad, -⟩ | ⟨-, use', node', fs', j, e, hadd, hj, -, -, hm, hsec, -, written⟩
  · rcases hbad with hempty | hlong | ⟨i, hi, hm⟩
    · rcases hname with rfl | rfl <;> simp [selfPath, parentPath] at hempty
    · rcases hname with rfl | rfl <;> simp [selfPath, parentPath, nameMax] at hlong
    · exact absurd hm (hnew i hi)
  · have hdots : e.name = selfPath ∨ e.name = parentPath := hm.2 ▸ hname
    have root := h.root.add hj hsec h.rootLive hroot0 (fun _ => hdots)
      (fun hne => absurd rfl hne) fun q hq ino hino hrem => (h.root.removed q hq ino hino hrem).2.1
    obtain ⟨ok', hfiles⟩ := h.entryWritten written root
    exact ⟨use', node', j, e, fs', hadd, ok', hm.2, hj, written.grow.openAt o, hfiles,
      written.grow.freeMapFile⟩

/-- An empty directory that no entry leads to yet. -/
theorem FsOk.ofEmpty (sound : Sound use live node [] fs) (only : OnlyMap f fs)
    (hlive : live rootDirSector) (hlen : inodeLength (node rootDirSector) = 320)
    (hzero : ∀ i : ℕ, (i : ℤ) < 320 → fileByte fs.dev.disk (node rootDirSector) i = 0) :
    FsOk use live node [] noEntries 16 fs where
  sound := sound
  mapOpen := by simp [only.mapFile]
  rootLive := hlive
  dir := by
    refine ⟨by rw [hlen]; rfl, fun j hj => ext_byteAt fun k hk => ?_⟩
    rw [byteAt_entryOf hk, noEntries, byteAt_zeros, hzero _ (by omega)]
  root := by
    have unused : ∀ j < 16, (noEntries j).inUse ≠ true := fun j _ => by simp [inUse_noEntries]
    refine ⟨fun j hj hu => absurd hu (unused j hj), fun j hj hu => absurd hu (unused j hj),
      fun i hi _ _ hu => absurd hu (unused i hi), fun p hp ino hino hrem => ?_,
      fun p hp ino hino _ => (only.inodes p hp ino hino).2⟩
    simp [(only.inodes p hp ino hino).1] at hrem
  mapPrivate g file hg hne := by
    have e : g ≠ f := fun e => hne (e ▸ only.mapFile)
    simp [only.files g e] at hg

/-- The inodes of a file system that has just been formatted. -/
def FormatLive (s : ℕ) : Prop := s = freeMapSector ∨ s = rootDirSector

/-- **`dir_create`** for the root directory. -/
theorem dirCreate_spec (sound : Sound use (fun x => x = freeMapSector) node [] fs)
    (huse : use rootDirSector = some .inode) (only : OnlyMap f fs)
    (free : demand (bytesToSectors 320) ≤ freeSectors fs.freeMap) :
    ∃ use' node' ent' cnt' fs',
      dirCreate fs rootDirSector 16 rootDirSector = .ok (true, fs') ∧
      FsOk use' FormatLive node' [] ent' cnt' fs' ∧ fs'.freeMapFile = some f ∧
      ∀ g, g ≠ f → fs'.files g = none := by
  have hroot0 : ¬ rootDirSector = freeMapSector := by simp [rootDirSector, freeMapSector]
  have closed : ∀ p ∈ fs.openInodes, ∀ ino, fs.inodes p = some ino → ino.sector ≠ rootDirSector := by
    intro p hp ino hino e
    obtain ⟨a, ha, hlive⟩ := sound.heap.listed p hp
    rw [hino, Option.some.injEq] at ha
    exact hroot0 (e.symm.trans (ha ▸ hlive))
  obtain ⟨use1, d, fs1, hrun1, sound1, created, hlen, hzero, -⟩ :=
    sound.create hroot0 huse closed (show (0 : ℤ) ≤ 320 by omega) (by omega) free true
  have hfiles1 : fs1.files = fs.files := by
    rw [created.rest]
    rfl
  have hmap1 : fs1.freeMapFile = fs.freeMapFile := by
    rw [created.rest]
    rfl
  have only1 : OnlyMap f fs1 := by
    rw [created.rest]
    exact ⟨only.mapFile, only.files, only.inodes⟩
  have hnode : Function.update node rootDirSector d rootDirSector = d := Function.update_self ..
  have ok1 := FsOk.ofEmpty sound1 only1 (.inr rfl) (hnode ▸ hlen) (by rwa [hnode])
  obtain ⟨p, fs2, hrun2, ok2, o2, same2⟩ := ok1.openInode ok1.rootLive
  have unused : ∀ name, ∀ i < 16, ¬ Matches noEntries name i := by
    intro name i _ hm
    simp [Matches, inUse_noEntries] at hm
  obtain ⟨use3, node3, j, e, fs3, hrun3, ok3, hself, hj, o3, hfiles3, hmap3⟩ :=
    ok2.addDots o2 (.inl rfl) (unused _) (show 0 < 16 by omega) (inUse_noEntries 0)
  -- an entry that is still free
  have hother : ∃ k < max 16 (j + 1), k ≠ j := by
    by_cases hj0 : j = 0
    · exact ⟨1, by omega, by omega⟩
    · exact ⟨0, by omega, fun e => hj0 e.symm⟩
  obtain ⟨k, hk, hkj⟩ := hother
  have hkfree : (Function.update noEntries j e k).inUse = false := by
    rw [Function.update_of_ne hkj, inUse_noEntries]
  have hnew : ∀ i < max 16 (j + 1),
      ¬ Matches (Function.update noEntries j e) parentPath i := by
    rintro i hi ⟨hu, hm⟩
    rcases RootOk.entry_cases hj hi hu with ⟨-, h, -⟩ | ⟨-, -, -, h⟩
    · rw [h, hself] at hm
      simp [selfPath, parentPath] at hm
    · simp [inUse_noEntries] at h
  obtain ⟨use4, node4, j', e', fs4, hrun4, ok4, -, -, o4, hfiles4, hmap4⟩ :=
    ok3.addDots o3 (.inr rfl) hnew hk hkfree
  obtain ⟨fs5, hrun5, ok5, same5, -⟩ := ok4.closeRoot o4
  refine ⟨use4, node4, _, _, fs5, ?_, ok5, ?_, fun g hg => ?_⟩
  · have h320 : (20 * ((16 : ℕ) : ℤ)) = 320 := by norm_num
    simp only [dirCreate, h320, hrun1, ok_bind, hrun2, hrun3, hrun4, hrun5]
    rfl
  · rw [same5.freeMapFile, hmap4, hmap3, same2.freeMapFile, hmap1, only.mapFile]
  · rw [same5.files, hfiles4, hfiles3, same2.files, hfiles1]
    exact only.files g hg

end

/-! ## The whole -/

/-- Formatting makes a healthy file system without files: no inode is live but those of the free map and
the root directory, and no file is open but the free map's. -/
theorem filesysInit_empty {dev : Device} (ok : FormatOk dev) (junk : ℕ → Bool) :
    ∃ fs use node ent cnt f, filesysInit dev junk true = .ok fs ∧
      FsOk use FormatLive node [] ent cnt fs ∧ fs.freeMapFile = some f ∧
      ∀ g, g ≠ f → fs.files g = none := by
  obtain ⟨use1, node1, f, fs1, hrun1, sound1, huse, only, hfree⟩ := freeMapCreate_spec ok junk
  have hroom : demand (bytesToSectors 320) ≤ freeSectors fs1.freeMap := by
    have := ok.2
    unfold formatDemand at this
    omega
  obtain ⟨use, node, ent, cnt, fs2, hrun2, ok2, hmap2, hfiles2⟩ :=
    dirCreate_spec sound1 huse only hroom
  obtain ⟨fs3, hrun3, sound3, hdev3, hfree3, kept3, deny3, hfiles3⟩ := ok2.freeMapClose
  obtain ⟨fm, q, hfm, map, hsync⟩ := ok2.mapFile
  have hnone : ∀ g, fs3.files g = none := by
    intro g
    rw [hfiles3, hmap2]
    by_cases e : g = f
    · simp [e]
    · rw [if_neg (by simpa using Ne.symm e)]
      exact hfiles2 g e
  have hsize : fs3.dev.size = fs2.dev.size := by rw [hdev3]
  have hsync3 : MapSynced node (fs3.withMap none fs2.freeMap) :=
    hsync.congr hsize rfl fun j _ => by rw [FsState.withMap_dev, hdev3]
  obtain ⟨f', q', fs4, hrun4, sound4, hmap4, hdev4, -, -, hfiles4, kept4⟩ :=
    freeMapOpen_spec sound3 map.isLive (hsize ▸ map.length) (hsize ▸ map.nonempty)
      (by rw [hfree3, hsize]; exact ok2.sound.core.mapSize) hsync3 deny3
  have root4 := (ok2.root.congr kept3 fun j hj hu => (ok2.root.entries j hj hu).1).congr kept4
    fun j hj hu => (ok2.root.entries j hj hu).1
  refine ⟨fs4, use, node, ent, cnt, f', ?_,
    ok2.ofMount sound4 hmap4 (hdev4.trans hdev3) hnone hfiles4 root4, hmap4, fun g hg => ?_⟩
  · simp only [filesysInit, if_true, doFormat, hrun1, ok_bind, hrun2, hrun3]
    exact hrun4
  · rw [hfiles4, Function.update_of_ne hg]
    exact hnone g

/-- **Formatting** makes a healthy file system. -/
theorem filesysInit_format {dev : Device} (ok : FormatOk dev) (junk : ℕ → Bool) :
    ∃ fs use live node ent cnt, filesysInit dev junk true = .ok fs ∧
      FsOk use live node [] ent cnt fs := by
  obtain ⟨fs, use, node, ent, cnt, f, hrun, h, -, -⟩ := filesysInit_empty ok junk
  exact ⟨fs, use, FormatLive, node, ent, cnt, hrun, h⟩

/-- A blank device of 16 sectors. -/
def smallDevice : Device := ⟨16, by decide, fun _ => zeros⟩

example : FormatOk smallDevice := by decide

end Pintos
