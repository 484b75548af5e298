import Pintos.FileSys.Space

/-!
# The sectors a file gives back

The last `inode_close` of a removed inode, counted in sectors of the free map.

To see that sectors are lost, only numbers are needed: every `free_map_release` of one
sector clears one bit, and the loops of `inode_close` release no more than `m` sectors and
that of the inode, wherever the pointers they follow lead.  A file with an index block has
more than that.

* **`returnsSpace_iff`** — closing a removed file gives all its sectors back exactly if it has
  no index block.
* **`index_block_lost`** — a file of 123 sectors.
-/

namespace Pintos

open Lib Lib.Block

/-! ## Giving back -/

section Count

variable {fs fs' : FsState} {t m : ℕ} {d : Sector}

/-- **`free_map_release (t, 1)`** clears the bit of `t`, which was set. -/
theorem freeMapRelease_bits (h : freeMapRelease fs t 1 = .ok fs') :
    t < fs.freeMap.bitCnt ∧ fs.freeMap.bits t = true ∧ fs'.freeMap = fs.freeMap.setRange t 1 false := by
  unfold freeMapRelease freeMapReleaseWith at h
  obtain ⟨all, hall, h⟩ := bind_eq_ok.mp h
  split at h
  · next hset =>
      obtain ⟨map, hmap, h⟩ := bind_eq_ok.mp h
      unfold bitmapSetMultiple at hmap
      split at hmap
      · next hfit =>
          cases hmap
          unfold commitRelease at h
          split at h
          · cases h
          · obtain ⟨⟨ok, fs1⟩, hwrite, h⟩ := bind_eq_ok.mp h
            cases h
            unfold bitmapWriteWith at hwrite
            obtain ⟨file, -, hwrite⟩ := bind_eq_ok.mp hwrite
            obtain ⟨⟨written, fs2⟩, hwrite, e⟩ := bind_eq_ok.mp hwrite
            cases e
            refine ⟨by omega, ?_, freeMapWriteAt_freeMap hwrite⟩
            have hbit : fs.freeMap.bits t = all := by
              simpa [bitmapAll, bitmapContains, hfit, Bitmap.runHas] using hall
            exact hbit.trans hset
      · cases hmap
  · cases h

/-- From `fs` on, `freed` sectors of at most `m` have become free. -/
structure Releases (m freed freed' : ℕ) (fs fs' : FsState) : Prop where
  le : freed ≤ freed'
  bound : freed' ≤ m
  bitCnt : fs'.freeMap.bitCnt = fs.freeMap.bitCnt
  count : freeSectors fs'.freeMap + freed = freeSectors fs.freeMap + freed'

theorem Releases.refl {freed : ℕ} (h : freed ≤ m) : Releases m freed freed fs fs :=
  ⟨le_rfl, h, rfl, rfl⟩

theorem Releases.trans {a b c : ℕ} {fs'' : FsState} (h : Releases m a b fs fs')
    (h' : Releases m b c fs' fs'') : Releases m a c fs fs'' := by
  obtain ⟨h1, h2, h3, h4⟩ := h
  obtain ⟨h1', h2', h3', h4'⟩ := h'
  exact ⟨by omega, h2', h3'.trans h3, by omega⟩

theorem freeSectors_release (h : freeMapRelease fs t 1 = .ok fs') :
    freeSectors fs'.freeMap = freeSectors fs.freeMap + 1 := by
  obtain ⟨hlt, hbit, hmap⟩ := freeMapRelease_bits h
  have hrun : fs'.freeMap.FreeRun t 1 := by
    rw [hmap]
    refine ⟨hlt, fun k hk hk' => ?_⟩
    rw [Bitmap.setRange_bits, if_pos ⟨hk, hk'⟩]
  have hback : fs'.freeMap.setRange t 1 true = fs.freeMap := by
    rw [hmap]
    refine congrArg (Bitmap.mk fs.freeMap.bitCnt) (funext fun k => ?_)
    show ((fs.freeMap.setRange t 1 false).setRange t 1 true).bits k = _
    rw [Bitmap.setRange_bits, Bitmap.setRange_bits]
    by_cases hk : t ≤ k ∧ k < t + 1
    · have e : k = t := by omega
      rw [if_pos hk, e, hbit]
    · rw [if_neg hk, if_neg hk]
  have := freeSectors_mark hrun
  rw [hback] at this
  omega

theorem releases_one {freed : ℕ} (h : freeMapRelease fs t 1 = .ok fs') (hlt : freed < m) :
    Releases m freed (freed + 1) fs fs' := by
  refine ⟨by omega, hlt, ?_, by rw [freeSectors_release h]; omega⟩
  rw [(freeMapRelease_bits h).2.2]
  rfl

/-- The loop over the direct pointers. -/
theorem releases_direct : ∀ (k freed : ℕ) {freed' : ℕ} (fs : FsState) {fs' : FsState}, freed ≤ m →
    releaseDirect d m k freed fs = .ok (freed', fs') → Releases m freed freed' fs fs' := by
  intro k
  induction k with
  | zero =>
      intro freed freed' fs fs' hle h
      cases h
      exact .refl hle
  | succ k ih =>
      intro freed freed' fs fs' hle h
      rw [releaseDirect] at h
      split at h
      · next hc =>
          obtain ⟨fs1, hrun, h⟩ := bind_eq_ok.mp h
          exact (releases_one hrun hc.1).trans (ih (freed + 1) fs1 hc.1 h)
      · cases h
        exact .refl hle

/-- The loop of `free_indirect_block`. -/
theorem releases_indirect {block : Sector} : ∀ (k index freed : ℕ) {freed' : ℕ} (fs : FsState)
    {fs' : FsState}, freed ≤ m → freeIndirectLoop block m k index freed fs = .ok (freed', fs') →
      Releases m freed freed' fs fs' := by
  intro k
  induction k with
  | zero =>
      intro index freed freed' fs fs' hle h
      cases h
      exact .refl hle
  | succ k ih =>
      intro index freed freed' fs fs' hle h
      rw [freeIndirectLoop] at h
      split at h
      · next hc =>
          have hlt : freed < m := by omega
          obtain ⟨fs1, hrun, h⟩ := bind_eq_ok.mp h
          exact (releases_one hrun hlt).trans (ih (index + 1) (freed + 1) fs1 hlt h)
      · cases h
        exact .refl hle

/-- The loop over the doubly indirect block, wherever its pointers lead. -/
theorem releases_second {block : Sector} : ∀ (k index freed : ℕ) {freed' : ℕ} (fs : FsState)
    {fs' : FsState}, freed ≤ m → releaseSecondLevel block m k index freed fs = .ok (freed', fs') →
      Releases m freed freed' fs fs' := by
  intro k
  induction k with
  | zero =>
      intro index freed freed' fs fs' hle h
      cases h
      exact .refl hle
  | succ k ih =>
      intro index freed freed' fs fs' hle h
      rw [releaseSecondLevel] at h
      split at h
      · obtain ⟨firstLvl, -, h⟩ := bind_eq_ok.mp h
        obtain ⟨⟨freed1, fs1⟩, hrun, h⟩ := bind_eq_ok.mp h
        have h1 := releases_indirect 128 0 freed fs hle hrun
        exact h1.trans (ih (index + 1) freed1 fs1 h1.bound h)
      · cases h
        exact .refl hle

/-- **The release of a removed inode** frees at most its data sectors and its own sector. -/
theorem releases_blocks {s : ℕ} (h : releaseBlocks fs s d = .ok fs') :
    fs'.freeMap.bitCnt = fs.freeMap.bitCnt ∧
      freeSectors fs'.freeMap ≤ freeSectors fs.freeMap + bytesToSectors (inodeLength d) + 1 := by
  unfold releaseBlocks at h
  obtain ⟨⟨freed1, fs1⟩, hrun1, h⟩ := bind_eq_ok.mp h
  obtain ⟨⟨freed2, fs2⟩, hrun2, h⟩ := bind_eq_ok.mp h
  obtain ⟨⟨freed3, fs3⟩, hrun3, h⟩ := bind_eq_ok.mp h
  have h1 := releases_direct 122 0 fs (Nat.zero_le _) hrun1
  have h2 : Releases (bytesToSectors (inodeLength d)) freed1 freed2 fs1 fs2 := by
    unfold releaseFirst at hrun2
    split at hrun2
    · obtain ⟨block, -, hrun2⟩ := bind_eq_ok.mp hrun2
      exact releases_indirect 128 0 freed1 fs1 h1.bound hrun2
    · cases hrun2
      exact .refl h1.bound
  have h3 : Releases (bytesToSectors (inodeLength d)) freed2 freed3 fs2 fs3 := by
    unfold releaseSecond at hrun3
    split at hrun3
    · obtain ⟨block, -, hrun3⟩ := bind_eq_ok.mp hrun3
      exact releases_second 128 0 freed2 fs2 h2.bound hrun3
    · cases hrun3
      exact .refl h2.bound
  obtain ⟨-, hbound, hcnt, hcount⟩ := (h1.trans h2).trans h3
  have hlast := freeSectors_release h
  obtain ⟨-, -, hmap⟩ := freeMapRelease_bits h
  refine ⟨?_, by omega⟩
  rw [hmap]
  exact hcnt

/-- The bits after the loop over the direct pointers, all of them present. -/
theorem releaseDirect_bits (hp : ∀ i < m, directPtr d i ≠ 0) : ∀ (k freed : ℕ) {freed' : ℕ}
    (fs : FsState) {fs' : FsState}, m ≤ freed + k → freed ≤ m →
      releaseDirect d m k freed fs = .ok (freed', fs') → freed' = m ∧
      ∀ x, fs'.freeMap.bits x =
        if ∃ i < m, freed ≤ i ∧ directPtr d i = x then false else fs.freeMap.bits x := by
  intro k
  induction k with
  | zero =>
      intro freed freed' fs fs' hk hle h
      cases h
      exact ⟨by omega, fun x => by rw [if_neg (by rintro ⟨i, h1, h2, -⟩; omega)]⟩
  | succ k ih =>
      intro freed freed' fs fs' hk hle h
      rw [releaseDirect] at h
      split at h
      · next hc =>
          obtain ⟨fs1, hrun, h⟩ := bind_eq_ok.mp h
          obtain ⟨hend, hbits⟩ := ih (freed + 1) fs1 (by omega) hc.1 h
          obtain ⟨-, -, hmap⟩ := freeMapRelease_bits hrun
          refine ⟨hend, fun x => ?_⟩
          rw [hbits, hmap, Bitmap.setRange_bits]
          by_cases hx : directPtr d freed = x
          · rw [if_pos (show directPtr d freed ≤ x ∧ x < directPtr d freed + 1 by omega), ite_self]
            exact (if_pos ⟨freed, hc.1, le_rfl, hx⟩).symm
          · rw [if_neg (fun hr : directPtr d freed ≤ x ∧ x < directPtr d freed + 1 => hx (by omega))]
            refine if_congr ⟨?_, ?_⟩ rfl rfl
            · rintro ⟨i, hlt, hi, e⟩
              exact ⟨i, hlt, by omega, e⟩
            · rintro ⟨i, hlt, hi, e⟩
              have hne : i ≠ freed := by
                rintro rfl
                exact hx e
              exact ⟨i, hlt, by omega, e⟩
      · next hc =>
          have hend : freed = m := by
            by_contra hne
            have hlt : freed < m := by omega
            exact hc ⟨hlt, hp freed hlt⟩
          cases h
          exact ⟨hend, fun x => by rw [if_neg (by rintro ⟨i, h1, h2, -⟩; omega)]⟩

end Count

/-- The last opener of the file that was created at `s` is about to close it at `p`, and the file
is marked removed.  It has not grown since: its sectors are those `inode_create` left in `fs1`. -/
structure LastClose (fs1 fs : FsState) (p s len : ℕ) : Prop where
  sound : ∃ use live node held, Sound use live node (p :: held) fs
  mounted : fs.freeMapFile ≠ none
  inode : ∃ ino, fs.inodes p = some ino ∧ ino.sector = s ∧ ino.openCnt = 1 ∧ ino.removed = true ∧
    ino.data = fs1.dev.disk s
  sectors : treeSectors fs.dev.disk (fs1.dev.disk s) (sectorsFor len) =
    treeSectors fs1.dev.disk (fs1.dev.disk s) (sectorsFor len)

/-- **All space comes back**: exactly the sectors of the file become free, and if nothing else has
changed the free map since the creation, it is as it was before, with the sector of the inode
free. -/
def ReturnsSpace (fs0 fs1 fs : FsState) (p s len : ℕ) : Prop :=
  ∃ fs', inodeClose fs p = .ok fs' ∧
    (∀ k, fs'.freeMap.bits k =
      if k ∈ s :: treeSectors fs.dev.disk (fs1.dev.disk s) (sectorsFor len) then false
      else fs.freeMap.bits k) ∧
    ((∀ k, fs.freeMap.bits k = fs1.freeMap.bits k) → ∀ k < fs0.freeMap.bitCnt,
      fs'.freeMap.bits k = if k = s then false else fs0.freeMap.bits k)

section Close

variable {fs0 fs1 fs fs' : FsState} {p s len : ℕ}

/-- `inode_close` of the last opener of a removed inode. -/
theorem inodeClose_eq {ino : Inode} (hino : fs.inodes p = some ino) (hlast : ino.openCnt = 1)
    (hrem : ino.removed = true) (h : inodeClose fs p = .ok fs') :
    ∃ fs2, releaseBlocks (fs.unlistInode p) ino.sector ino.data = .ok fs2 ∧
      fs'.freeMap = fs2.freeMap := by
  simp only [inodeClose, FsState.inode_ok hino, ok_bind, hlast, sub_self, if_true, inodeFree,
    hrem] at h
  obtain ⟨fs2, hrun, h⟩ := bind_eq_ok.mp h
  cases h
  exact ⟨fs2, hrun, rfl⟩

/-- The sectors of the file are marked, and different. -/
theorem LastClose.marked (h : LastClose fs1 fs p s len) (hlen : inodeLength (fs1.dev.disk s) = len) :
    (s :: treeSectors fs.dev.disk (fs1.dev.disk s) (sectorsFor len)).Nodup ∧
      (treeSectors fs.dev.disk (fs1.dev.disk s) (sectorsFor len)).length = demand (sectorsFor len) ∧
      (∀ t ∈ s :: treeSectors fs.dev.disk (fs1.dev.disk s) (sectorsFor len),
        t < fs.freeMap.bitCnt ∧ fs.freeMap.bits t = true) ∧
      ∀ i < sectorsFor len, Present fs.dev.disk (fs1.dev.disk s) i := by
  obtain ⟨use, live, node, held, sound⟩ := h.sound
  obtain ⟨ino, hino, hs, -, -, hdata⟩ := h.inode
  have hp := sound.heap.heldListed p List.mem_cons_self
  obtain ⟨a, ha, hlive⟩ := sound.heap.listed p hp
  rw [hino, Option.some.injEq] at ha
  subst ha
  rw [hs] at hlive
  have hopen := (sound.core.opens p hp ino hino).2
  obtain ⟨huse, tree⟩ := sound.core.tree s hlive
  rw [hs] at hopen
  rw [← hopen, hdata] at tree
  have hcount : TreeOk.count (fs1.dev.disk s) = sectorsFor len := by
    unfold TreeOk.count sectorsFor
    rw [hlen]
    omega
  have howned := fun t ht => tree.owned (t := t) ht
  have hnodup := tree.nodup
  have hlength := tree.length
  rw [hcount] at howned hnodup hlength
  refine ⟨List.nodup_cons.mpr ⟨fun hmem => ?_, hnodup⟩, hlength, fun t ht => ?_, fun i hi => ?_⟩
  · obtain ⟨u, hu, ho⟩ := howned s hmem
    rw [huse, Option.some.injEq] at hu
    rw [← hu] at ho
    cases ho
  · rw [sound.core.mapSize]
    rcases List.mem_cons.mp ht with rfl | ht
    · exact sound.core.used t _ huse
    · obtain ⟨u, hu, -⟩ := howned t ht
      exact sound.core.used t u hu
  · rw [← hcount] at hi
    exact tree.present i (tree.lt_count.mp hi)

/-- If all space comes back, there is no index block. -/
theorem direct_of_returnsSpace (h : LastClose fs1 fs p s len)
    (hlen : inodeLength (fs1.dev.disk s) = len) (hmax : len ≤ 8516608)
    (hret : ReturnsSpace fs0 fs1 fs p s len) : sectorsFor len ≤ 122 := by
  obtain ⟨fs', hclose, hbits, -⟩ := hret
  obtain ⟨ino, hino, hs, hlast, hrem, hdata⟩ := h.inode
  obtain ⟨hnodup, hlength, hmarked, -⟩ := h.marked hlen
  obtain ⟨fs2, hrun, hmap⟩ := inodeClose_eq hino hlast hrem hclose
  obtain ⟨hcnt, hcount⟩ := releases_blocks hrun
  have hsectors : bytesToSectors (inodeLength ino.data) = sectorsFor len := by
    rw [hdata, hlen, bytesToSectors_eq (by omega) (by exact_mod_cast hmax), sectorsFor]
    omega
  rw [hsectors, ← hmap] at hcount
  rw [← hmap] at hcnt
  -- the sectors of the file are free now and were not before
  have hback := card_taken fs' fs hcnt.symm fun k hk => by
    rw [hbits] at hk
    split at hk
    · cases hk
    · exact hk
  have hsub : (s :: treeSectors fs.dev.disk (fs1.dev.disk s) (sectorsFor len)).toFinset ⊆
      taken fs' fs := by
    intro t ht
    rw [List.mem_toFinset] at ht
    obtain ⟨hlt, hbit⟩ := hmarked t ht
    refine mem_taken.mpr ⟨hcnt ▸ hlt, ?_, hbit⟩
    rw [hbits, if_pos ht]
  have hcard := Finset.card_le_card hsub
  rw [List.toFinset_card_of_nodup hnodup, List.length_cons, hlength] at hcard
  have hfree : freeSectors (fs.unlistInode p).freeMap = freeSectors fs.freeMap := rfl
  by_contra hbig
  have hdemand : sectorsFor len + 1 ≤ demand (sectorsFor len) := by
    unfold demand
    rw [if_pos (by omega)]
    omega
  omega

/-- The release of an inode without index blocks. -/
theorem releaseBlocks_bits {d : Sector} {m : ℕ} (hm : bytesToSectors (inodeLength d) = m)
    (hdirect : m ≤ 122) (hp : ∀ i < m, directPtr d i ≠ 0) (h : releaseBlocks fs s d = .ok fs') (x : ℕ) :
    fs'.freeMap.bits x =
      if x = s ∨ ∃ i < m, directPtr d i = x then false else fs.freeMap.bits x := by
  unfold releaseBlocks at h
  rw [hm] at h
  obtain ⟨⟨freed1, fs1⟩, hrun1, h⟩ := bind_eq_ok.mp h
  obtain ⟨⟨freed2, fs2⟩, hrun2, h⟩ := bind_eq_ok.mp h
  obtain ⟨⟨freed3, fs3⟩, hrun3, h⟩ := bind_eq_ok.mp h
  obtain ⟨hfreed, hbits⟩ := releaseDirect_bits hp 122 0 fs (by omega) (Nat.zero_le _) hrun1
  subst hfreed
  simp only [releaseFirst, lt_self_iff_false, false_and, if_false, Except.ok.injEq, Prod.mk.injEq] at hrun2
  obtain ⟨rfl, rfl⟩ := hrun2
  simp only [releaseSecond, lt_self_iff_false, false_and, if_false, Except.ok.injEq, Prod.mk.injEq] at hrun3
  obtain ⟨rfl, rfl⟩ := hrun3
  obtain ⟨-, -, hmap⟩ := freeMapRelease_bits h
  rw [hmap, Bitmap.setRange_bits]
  by_cases hx : x = s
  · rw [if_pos (by omega), if_pos (.inl hx)]
  · rw [if_neg (by omega), hbits]
    refine if_congr ?_ rfl rfl
    simp only [Nat.zero_le, true_and, hx, false_or]

/-- A file without index blocks has its direct sectors only. -/
theorem mem_treeSectors_direct {disk : ℕ → Sector} {d : Sector} {m t : ℕ} (hm : m ≤ 122) :
    t ∈ treeSectors disk d m ↔ ∃ i < m, directPtr d i = t := by
  have hindex : indexBlocks disk d m = [] := by
    rw [indexBlocks, if_neg (by omega), if_neg (by omega)]
    rfl
  rw [treeSectors, hindex, List.append_nil, dataSectors, List.mem_map]
  refine exists_congr fun i => ?_
  rw [List.mem_range]
  refine and_congr_right fun hi => ?_
  rw [slotOf, if_pos (by omega)]

/-- What the creation took is free again. -/
theorem restored (new : NewFile fs0 fs1 s len (fs1.dev.disk s)) (h : LastClose fs1 fs p s len)
    (hbits : ∀ k, fs'.freeMap.bits k =
      if k ∈ s :: treeSectors fs.dev.disk (fs1.dev.disk s) (sectorsFor len) then false
      else fs.freeMap.bits k)
    (hsame : ∀ k, fs.freeMap.bits k = fs1.freeMap.bits k) {k : ℕ} (hk : k < fs0.freeMap.bitCnt) :
    fs'.freeMap.bits k = if k = s then false else fs0.freeMap.bits k := by
  rw [hbits, h.sectors, hsame]
  by_cases hks : k = s
  · rw [if_pos hks, hks, if_pos List.mem_cons_self]
  rw [if_neg hks]
  have hmem : k ∈ s :: treeSectors fs1.dev.disk (fs1.dev.disk s) (sectorsFor len) ↔ k ∈ taken fs0 fs1 := by
    rw [new.taken, List.mem_toFinset, List.mem_cons]
    exact or_iff_right hks
  by_cases ht : k ∈ taken fs0 fs1
  · rw [if_pos (hmem.mpr ht)]
    exact (mem_taken.mp ht).2.1.symm
  · rw [if_neg fun h => ht (hmem.mp h)]
    cases h0 : fs0.freeMap.bits k with
    | true => exact new.mono k h0
    | false =>
        by_contra h1
        exact ht (mem_taken.mpr ⟨hk, h0, by simpa using h1⟩)

/-- A file without index blocks gives all its space back. -/
theorem returnsSpace_of_direct (new : NewFile fs0 fs1 s len (fs1.dev.disk s))
    (h : LastClose fs1 fs p s len) (hne : s ≠ freeMapSector) (hdirect : sectorsFor len ≤ 122) :
      ReturnsSpace fs0 fs1 fs p s len := by
  obtain ⟨use, live, node, held, sound⟩ := h.sound
  obtain ⟨ino, hino, hsec, hlast, hrem, hdata⟩ := h.inode
  obtain ⟨-, -, -, hpresent⟩ := h.marked new.length
  have hmax : len ≤ 8516608 := by
    unfold sectorsFor at hdirect
    omega
  have hcount : TreeOk.count ino.data = sectorsFor len := by
    unfold TreeOk.count sectorsFor
    rw [hdata, new.length]
    omega
  obtain ⟨use', fs', hclose, -⟩ := inodeClose_removed sound h.mounted hino hlast hrem (hsec ▸ hne)
    (.inl (by rw [hcount]; omega))
  obtain ⟨fs2, hrun, hmap⟩ := inodeClose_eq hino hlast hrem hclose
  have hptr : ∀ i < sectorsFor len, directPtr ino.data i ≠ 0 := by
    intro i hi
    have := (hpresent i hi).1
    rwa [slotOf, if_pos (by omega), ← hdata] at this
  have hsectors : bytesToSectors (inodeLength ino.data) = sectorsFor len := by
    rw [hdata, new.length, bytesToSectors_eq (by omega) (by exact_mod_cast hmax), sectorsFor]
    omega
  have hbits : ∀ k, fs'.freeMap.bits k =
      if k ∈ s :: treeSectors fs.dev.disk (fs1.dev.disk s) (sectorsFor len) then false
      else fs.freeMap.bits k := by
    intro k
    rw [hmap, releaseBlocks_bits hsectors hdirect hptr hrun k]
    refine if_congr ?_ rfl rfl
    rw [List.mem_cons, mem_treeSectors_direct hdirect, hsec, hdata]
  exact ⟨fs', hclose, hbits, fun hsame k hk => restored new h hbits hsame hk⟩

end Close

/-- **Deleting a file returns all its space exactly if it has no index block.** -/
theorem returnsSpace_iff (fs0 fs1 fs : FsState) (p s len : ℕ) (isDir : Bool) (fresh : FreshInode fs0 s)
    (mounted : fs0.freeMapFile ≠ none) (room : Room fs0 len)
    (created : inodeCreate fs0 s len isDir = .ok (true, fs1)) (last : LastClose fs1 fs p s len) :
    ReturnsSpace fs0 fs1 fs p s len ↔ sectorsFor len ≤ 122 := by
  obtain ⟨d, fs1', hrun, new⟩ := inodeCreate_newFile fresh room.1 room.2 isDir
  rw [created] at hrun
  cases hrun
  have hd := new.written
  subst hd
  obtain ⟨use, live, node, held, sound, hs, -⟩ := fresh
  have hne := (sound.ready.ne_freeMapSector hs).resolve_left mounted
  constructor
  · exact direct_of_returnsSpace last new.length room.1
  · exact returnsSpace_of_direct new last hne

/-- A new file that is opened and removed, and nothing else done. -/
theorem NewFile.lastClose {fs0 fs1 : FsState} {s len : ℕ} {d : Sector} (h : NewFile fs0 fs1 s len d)
    (mounted : fs0.freeMapFile ≠ none) : ∃ p fs2 fs, inodeOpen fs1 s = .ok (p, fs2) ∧
      inodeRemove fs2 p = .ok fs ∧ LastClose fs1 fs p s len := by
  obtain ⟨use, live, node, held, sound, hlive, hd, hclosed⟩ := h.tree
  obtain ⟨p, fs2, hopen, sound2, o, same, hnew⟩ := inodeOpen_spec sound hlive
  have hino := hnew hclosed
  refine ⟨p, fs2, fs2.setInode p ⟨s, 1, true, 0, node s⟩, hopen, ?_, ⟨use, live, node, held, ?_⟩, ?_,
    ⟨_, Function.update_self .., rfl, rfl, rfl, ?_⟩, ?_⟩
  · simp only [inodeRemove, FsState.inode_ok hino, ok_bind]
    rfl
  · exact ⟨sound2.core.setInode o.listed hino rfl rfl, sound2.ready.setInode hino rfl fun _ => rfl,
      sound2.heap.setInode_same o.listed hino rfl rfl rfl, sound2.synced⟩
  · show fs2.freeMapFile ≠ none
    rw [same.freeMapFile, h.mapFile]
    exact mounted
  · exact hd.trans h.written.symm
  · show treeSectors fs2.dev.disk _ _ = _
    rw [same.dev]

/-- A file of two sectors is created, opened, removed and closed. -/
theorem returnsSpace_small : ∃ fs0 fs1 fs p,
    freeMapCreate (freeMapInit blankDevice fun _ => false) = .ok fs0 ∧
    (FreshInode fs0 rootDirSector ∧ fs0.freeMapFile ≠ none ∧ Room fs0 1000 ∧
      inodeCreate fs0 rootDirSector (1000 : ℕ) false = .ok (true, fs1) ∧
      LastClose fs1 fs p rootDirSector 1000) ∧ ReturnsSpace fs0 fs1 fs p rootDirSector 1000 := by
  obtain ⟨fs0, hrun, fresh, mounted, hfree⟩ := exists_freshInode
  have room : Room fs0 1000 := ⟨by decide, by rw [hfree]; decide⟩
  obtain ⟨d, fs1, created, new⟩ := inodeCreate_newFile fresh room.1 room.2 false
  obtain ⟨p, fs2, fs, -, -, last⟩ := new.lastClose mounted
  exact ⟨fs0, fs1, fs, p, hrun, ⟨fresh, mounted, room, created, last⟩,
    (returnsSpace_iff fs0 fs1 fs p rootDirSector 1000 false fresh mounted room created last).mpr
      (by decide)⟩

/-- **The index block of a file of 123 sectors is not given back.** -/
theorem index_block_lost : ¬ ∀ (fs0 fs1 fs : FsState) (p s len : ℕ) (isDir : Bool), FreshInode fs0 s →
    fs0.freeMapFile ≠ none → Room fs0 len → inodeCreate fs0 s len isDir = .ok (true, fs1) →
    LastClose fs1 fs p s len → ReturnsSpace fs0 fs1 fs p s len := by
  intro claim
  obtain ⟨fs0, hrun, fresh, mounted, hfree⟩ := exists_freshInode
  have room : Room fs0 62976 := ⟨by decide, by rw [hfree]; decide⟩
  obtain ⟨d, fs1, created, new⟩ := inodeCreate_newFile fresh room.1 room.2 false
  obtain ⟨p, fs2, fs, -, -, last⟩ := new.lastClose mounted
  have hret := claim fs0 fs1 fs p rootDirSector 62976 false fresh mounted room created last
  have hlen : inodeLength (fs1.dev.disk rootDirSector) = (62976 : ℕ) := by
    rw [new.written]
    exact new.length
  exact absurd (direct_of_returnsSpace last hlen room.1 hret) (by decide)

end Pintos
