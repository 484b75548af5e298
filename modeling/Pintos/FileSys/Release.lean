import Pintos.FileSys.InodeOps

/-!
# Releasing the sectors of a removed inode

When the last opener of a removed inode closes it, `inode_close` releases its
sectors one at a time.  The loop over an indirect block advances `index` and
`sectors_freed` together and compares their sum with the number of sectors, so it
releases about half of what is left; what stays allocated is lost, but harmless.

At the doubly indirect level the loop then runs on into blocks and words that were
never filled: it takes the null pointers there for sectors.  `ReleaseOk` are the
sector counts for which that does not happen.
-/

namespace Pintos

open Lib Lib.Block

/-- The numbers of data sectors for which `inode_close` follows only pointers of the
tree: the doubly indirect level is not entered, or it is (almost) full. -/
def ReleaseOk (m : ℕ) : Prop := m ≤ 376 ∨ 16549 ≤ m

instance (m : ℕ) : Decidable (ReleaseOk m) := inferInstanceAs (Decidable (_ ∨ _))

section

variable {use use' use'' : ℕ → Option Use} {live : ℕ → Prop} {node : ℕ → Sector}
  {fs fs' fs'' : FsState} {s t : ℕ}

/-- Taking the purpose of a sector back and clearing its bit. -/
theorem Core.dropUse (core : Core use live node fs) {u : Use} (hu : use t = some u)
    (ht0 : t ≠ 0) (howner : ∀ x, live x → u.owner ≠ some x) (hlive : ¬ live t)
    (closed : ∀ p ∈ fs.openInodes, ∀ ino, fs.inodes p = some ino → ino.sector ≠ t) :
    Core (Function.update use t none) live node
      (fs.setMap (fs.freeMap.setRange t 1 false)) := by
  have keep : ∀ x, x ≠ t → Function.update use t none x = use x :=
    fun x hx => Function.update_of_ne hx _ _
  have bit : ∀ x, x ≠ t → (fs.freeMap.setRange t 1 false).bits x = fs.freeMap.bits x := by
    intro x hx
    rw [Bitmap.setRange_bits, if_neg (by omega)]
  refine ⟨core.mapSize, (bit 0 (Ne.symm ht0)).trans core.zeroUsed, fun x v hx => ?_,
    fun x hx => ?_, fun p hp ino hino => ?_⟩
  · have hne : x ≠ t := fun e => by simp [e] at hx
    rw [keep x hne] at hx
    exact ⟨(core.used x v hx).1, (bit x hne).trans (core.used x v hx).2⟩
  · obtain ⟨h1, h2⟩ := core.tree x hx
    have hne : x ≠ t := fun e => hlive (e ▸ hx)
    refine ⟨(keep x hne).trans h1, h2.congr (fun _ _ _ _ => rfl) fun y v hy hv => ?_⟩
    refine (keep y fun e => howner x hx ?_).trans hy
    rw [e, hu, Option.some.injEq] at hy
    rw [hy, hv]
  · obtain ⟨h1, h2⟩ := core.opens p hp ino hino
    exact ⟨(keep _ (closed p hp ino hino)).trans h1, h2⟩

/-- A stretch of releases: the sectors of `s` lose their purpose, of the disk only
the data of the free map's file may change. -/
structure Release (use use' : ℕ → Option Use) (live : ℕ → Prop) (node : ℕ → Sector)
    (fs fs' : FsState) : Prop where
  rest : fs' = (fs.setMap fs'.freeMap).setDev fs'.dev
  size : fs'.dev.size = fs.dev.size
  core : Core use' live node fs'
  ready : MapReady live node fs'
  only : ∀ x u, use' x = some u → use x = some u
  owned : ∀ s, live s → KeepsUse use use' s
  keep : ∀ x, (∀ i, use x ≠ some (.data freeMapSector i)) → fs'.dev.disk x = fs.dev.disk x

theorem Release.refl (core : Core use live node fs) (ready : MapReady live node fs) :
    Release use use live node fs fs :=
  ⟨rfl, rfl, core, ready, fun _ _ h => h, fun _ _ _ _ h _ => h, fun _ _ => rfl⟩

theorem Release.trans (h : Release use use' live node fs fs')
    (h' : Release use' use'' live node fs' fs'') : Release use use'' live node fs fs'' where
  rest := by
    rw [h'.rest, h.rest]
    rfl
  size := h'.size.trans h.size
  core := h'.core
  ready := h'.ready
  only x u hx := h.only x u (h'.only x u hx)
  owned s hs x u hx ho := h'.owned s hs x u (h.owned s hs x u hx ho) ho
  keep x hx := (h'.keep x fun i hi => hx i (h.only x _ hi)).trans (h.keep x hx)

/-- **`free_map_release (t, 1)`** of a sector that no live inode needs. -/
theorem freeMapRelease_spec (core : Core use live node fs) (ready : MapReady live node fs)
    (hopen : fs.freeMapFile ≠ none) {u : Use} (hu : use t = some u) (ht0 : t ≠ 0)
    (howner : ∀ x, live x → u.owner ≠ some x) (hlive : ¬ live t)
    (closed : ∀ p ∈ fs.openInodes, ∀ ino, fs.inodes p = some ino → ino.sector ≠ t) :
    ∃ fs', freeMapRelease fs t 1 = .ok fs' ∧
      Release use (Function.update use t none) live node fs fs' := by
  obtain ⟨hin, hbit⟩ := core.used t u hu
  have core1 := core.dropUse hu ht0 howner hlive closed
  have hsize : t + 1 ≤ fs.freeMap.bitCnt := by
    rw [core.mapSize]
    omega
  rcases ready.withBits (fs.freeMap.setRange t 1 false) with hf | ⟨f, q, hf, map⟩
  · exact absurd hf hopen
  obtain ⟨dev', hwrite, hdev, only, core2, synced⟩ :=
    bitmapWrite_spec (fun _ _ _ _ => .error (.assertFailed .lockAcquire)) core1 map
  refine ⟨_, ?_, ⟨rfl, hdev, core2, .inr ⟨f, q, hf, ⟨map.file, map.listed, map.inode, map.isLive,
    hdev ▸ map.length, hdev ▸ map.nonempty⟩, synced⟩, fun x v hx => ?_, fun s hs x v hx ho => ?_,
    fun x hx => ?_⟩⟩
  · have hall : bitmapAll fs.freeMap t 1 = .ok true := by
      simp [bitmapAll, bitmapContains, hsize, Bitmap.runHas, hbit]
    simp only [freeMapRelease, freeMapWriteAt, freeMapReleaseWith, hall, ok_bind, if_true, bitmapSetMultiple, hsize,
      commitRelease, FsState.setMap_freeMapFile, hf, hwrite]
    rfl
  · by_cases e : x = t
    · simp [e] at hx
    · rwa [Function.update_of_ne e] at hx
  · have e : x ≠ t := by
      rintro rfl
      rw [hu, Option.some.injEq] at hx
      exact howner s hs (hx ▸ ho)
    rwa [Function.update_of_ne e]
  · refine only x fun i hi => hx i ?_
    by_cases e : x = t
    · simp [e] at hi
    · rwa [Function.update_of_ne e] at hi

/-- The tree of `s` is being released: slots from `next` on are untouched, and so is
everything that is not data of `s`. -/
structure Freeing (use use' : ℕ → Option Use) (live : ℕ → Prop) (node : ℕ → Sector) (s : ℕ)
    (d : Sector) (next : ℕ) (fs fs' : FsState) : Prop where
  release : Release use use' live node fs fs'
  slots : ∀ i, next ≤ i → Present fs.dev.disk d i →
    use' (slotOf fs.dev.disk d i) = some (.data s i)
  others : ∀ x u, use x = some u → (∀ i, u ≠ .data s i) → use' x = some u

namespace Freeing

variable {d : Sector} {next : ℕ}

theorem freeMapFile (h : Freeing use use' live node s d next fs fs') :
    fs'.freeMapFile = fs.freeMapFile := by
  rw [h.release.rest]
  rfl

theorem mono (h : Freeing use use' live node s d next fs fs') {next' : ℕ} (hle : next ≤ next') :
    Freeing use use' live node s d next' fs fs' :=
  ⟨h.release, fun i hi hp => h.slots i (by omega) hp, h.others⟩

/-- One more data sector. -/
theorem slot (h : Freeing use use' live node s d next fs fs') (hopen : fs.freeMapFile ≠ none)
    (hs : ¬ live s) {i : ℕ} (hi : next ≤ i) (hp : Present fs.dev.disk d i) :
    ∃ use'' fs'', freeMapRelease fs' (slotOf fs.dev.disk d i) 1 = .ok fs'' ∧
      Freeing use use'' live node s d (i + 1) fs fs'' := by
  have hu := h.slots i hi hp
  obtain ⟨fs'', hrun, rel⟩ := freeMapRelease_spec h.release.core h.release.ready
    (by rwa [h.freeMapFile]) hu hp.1
    (fun x hx e => by
      rw [Use.owner, Option.some.injEq] at e
      exact hs (e ▸ hx))
    (fun hl => by
      have := (h.release.core.tree _ hl).1
      rw [hu] at this
      simp at this)
    (fun p hp ino hino e => by
      have := (h.release.core.opens p hp ino hino).1
      rw [e, hu] at this
      simp at this)
  refine ⟨_, fs'', hrun, h.release.trans rel, fun j hj hpj => ?_, fun x u hx hne => ?_⟩
  · have huj := h.slots j (by omega) hpj
    rw [Function.update_of_ne (fun e => ?_), huj]
    rw [e, hu] at huj
    simp only [Option.some.injEq, Use.data.injEq, true_and] at huj
    omega
  · have hux := h.others x u hx hne
    rw [Function.update_of_ne (fun e => ?_), hux]
    rw [e, hu, Option.some.injEq] at hux
    exact hne i hux.symm

/-- An index block reads as before. -/
theorem readIndex (h : Freeing use use' live node s d next fs fs') {x : ℕ} {u : Use}
    (hu : use x = some u) (hne : ∀ o i, u ≠ .data o i) :
    blockRead fs'.dev x = .ok (fs.dev.disk x) := by
  have hin := h.release.core.inside x u (h.others x u hu (hne s))
  rw [blockRead_ok hin, h.release.keep x fun i e => ?_]
  rw [hu, Option.some.injEq] at e
  exact hne _ _ e

end Freeing

section

variable {d : Sector} {m : ℕ}

/-- The loop over the direct pointers. -/
theorem releaseDirect_spec (hs : ¬ live s) (hopen : fs.freeMapFile ≠ none)
    (present : ∀ i < m, Present fs.dev.disk d i) :
    ∀ (k freed : ℕ) (use' : ℕ → Option Use) (fs' : FsState), freed + k = 122 → freed ≤ m →
      Freeing use use' live node s d freed fs fs' →
      ∃ use'' fs'', releaseDirect d m k freed fs' = .ok (freed + min k (m - freed), fs'') ∧
        Freeing use use'' live node s d (freed + min k (m - freed)) fs fs'' := by
  intro k
  induction k with
  | zero => exact fun freed use' fs' _ _ h => ⟨use', fs', by simp [releaseDirect], by simpa using h⟩
  | succ k ih =>
      intro freed use' fs' hk hle h
      by_cases hlt : freed < m
      · have hp := present freed hlt
        have hslot : slotOf fs.dev.disk d freed = directPtr d freed := by
          rw [slotOf, if_pos (by omega)]
        obtain ⟨use1, fs1, hrun1, h1⟩ := h.slot hopen hs le_rfl hp
        obtain ⟨use2, fs2, hrun2, h2⟩ := ih (freed + 1) use1 fs1 (by omega) (by omega) h1
        have e : freed + 1 + min k (m - (freed + 1)) = freed + min (k + 1) (m - freed) := by omega
        rw [e] at hrun2 h2
        refine ⟨use2, fs2, ?_, h2⟩
        rw [hslot] at hrun1
        rw [releaseDirect, if_pos ⟨hlt, hslot ▸ hp.1⟩, hrun1, ok_bind, hrun2]
      · refine ⟨use', fs', ?_, ?_⟩
        · rw [releaseDirect, if_neg (fun hc => hlt hc.1)]
          congr 2
          omega
        · rwa [show freed + min (k + 1) (m - freed) = freed by omega]

/-- **The loop over an indirect block** whose first word is slot `base`: it releases
`n` words, about half of what the counts leave. -/
theorem freeIndirectLoop_spec (hs : ¬ live s) (hopen : fs.freeMapFile ≠ none)
    (present : ∀ i < m, Present fs.dev.disk d i) {base : ℕ} {block : Sector}
    (hblock : ∀ j < 128, base + j < m → wordAt block j = slotOf fs.dev.disk d (base + j)) :
    ∀ (k index freed n : ℕ) (use' : ℕ → Option Use) (fs' : FsState), index + k = 128 →
      n = min k ((m - (index + freed) + 1) / 2) → base + index + n ≤ m →
      Freeing use use' live node s d (base + index) fs fs' →
      ∃ use'' fs'', freeIndirectLoop block m k index freed fs' = .ok (freed + n, fs'') ∧
        Freeing use use'' live node s d (base + index + n) fs fs'' := by
  intro k
  induction k with
  | zero =>
      intro index freed n use' fs' _ hn _ h
      have h0 : n = 0 := by omega
      subst h0
      exact ⟨use', fs', rfl, h⟩
  | succ k ih =>
      intro index freed n use' fs' hk hn hle h
      by_cases hlt : index + freed < m
      · have hpos : 0 < n := by omega
        have hslot := hblock index (by omega) (by omega)
        obtain ⟨use1, fs1, hrun1, h1⟩ := h.slot hopen hs le_rfl (present (base + index) (by omega))
        obtain ⟨use2, fs2, hrun2, h2⟩ := ih (index + 1) (freed + 1) (n - 1) use1 fs1 (by omega)
          (by omega) (by omega) h1
        rw [show freed + 1 + (n - 1) = freed + n by omega] at hrun2
        rw [show base + (index + 1) + (n - 1) = base + index + n by omega] at h2
        refine ⟨use2, fs2, ?_, h2⟩
        rw [freeIndirectLoop, if_pos hlt, hslot, hrun1, ok_bind, hrun2]
      · have h0 : n = 0 := by omega
        subst h0
        exact ⟨use', fs', by rw [freeIndirectLoop, if_neg hlt]; rfl, h⟩

/-- The single indirect level. -/
theorem releaseFirst_spec (hs : ¬ live s) (hopen : fs.freeMapFile ≠ none)
    (ptrs : PtrOk use fs.dev.disk s d) (present : ∀ i < m, Present fs.dev.disk d i)
    (h : Freeing use use' live node s d (min 122 m) fs fs') :
    ∃ use'' fs'', releaseFirst d m (min 122 m) fs' =
        .ok (min 122 m + min 128 ((m - 122 + 1) / 2), fs'') ∧
      Freeing use use'' live node s d (min 122 m + min 128 ((m - 122 + 1) / 2)) fs fs'' := by
  by_cases hlt : 122 < m
  · have hp := present 122 hlt
    have hI := hp.2.1 le_rfl (by omega)
    rw [show min 122 m = 122 by omega] at h ⊢
    have hread := h.readIndex (ptrs.indirect hI) (fun _ _ => by simp)
    have hblock : ∀ j < 128, 122 + j < m → wordAt (fs.dev.disk (indirectPtr d)) j =
        slotOf fs.dev.disk d (122 + j) := by
      intro j hj _
      rw [slotOf, if_neg (by omega), if_pos (by omega), Nat.add_sub_cancel_left]
    obtain ⟨use'', fs'', hrun, h'⟩ := freeIndirectLoop_spec hs hopen present hblock 128 0 122
      (min 128 ((m - 122 + 1) / 2)) use' fs' rfl (by omega) (by omega) h
    refine ⟨use'', fs'', ?_, h'⟩
    rw [releaseFirst, if_pos ⟨hlt, le_rfl, hI⟩, hread, ok_bind, freeIndirectBlock, hrun]
  · have e : min 122 m + min 128 ((m - 122 + 1) / 2) = min 122 m := by omega
    rw [e]
    exact ⟨use', fs', by rw [releaseFirst, if_neg (by omega)], h⟩

/-- **The loop over the doubly indirect block**, when it is almost full: `freed` is in
step with the blocks up to the last but one. -/
theorem releaseSecondLevel_spec (hs : ¬ live s) (hopen : fs.freeMapFile ≠ none)
    (ptrs : PtrOk use fs.dev.disk s d) (present : ∀ i < m, Present fs.dev.disk d i)
    (hm : 16549 ≤ m) (hm' : m ≤ 16634) :
    ∀ (k b freed : ℕ) (use' : ℕ → Option Use) (fs' : FsState), b + k = 128 →
      (b ≤ 126 → freed = 250 + 128 * b) → (b = 127 → freed = 16378 + (m - 16378 + 1) / 2) →
      Freeing use use' live node s d (250 + 128 * b) fs fs' →
      ∃ freed' use'' fs'', releaseSecondLevel (fs.dev.disk (doublyPtr d)) m k b freed fs' =
          .ok (freed', fs'') ∧ Freeing use use'' live node s d 16634 fs fs'' := by
  intro k
  induction k with
  | zero =>
      intro b freed use' fs' hk _ _ h
      have hb : b = 128 := by omega
      subst hb
      exact ⟨freed, use', fs', rfl, h⟩
  | succ k ih =>
      intro b freed use' fs' hk h1 h2 h
      have hlt : freed < m := by
        rcases Nat.lt_or_ge b 127 with hb | hb
        · have := h1 (by omega)
          omega
        · have := h2 (by omega)
          omega
      -- block `b` holds the slots from `250 + 128 * b` on, and the first of them exists
      have hp := present (250 + 128 * b) (by omega)
      obtain ⟨-, hD, hw⟩ := hp.2.2 (by omega)
      rw [show (250 + 128 * b - 250) / 128 = b by omega] at hw
      have hread := h.readIndex (ptrs.second hD b (by omega) hw) (fun _ _ => by simp)
      have hblock : ∀ j < 128, 250 + 128 * b + j < m →
          wordAt (fs.dev.disk (wordAt (fs.dev.disk (doublyPtr d)) b)) j =
            slotOf fs.dev.disk d (250 + 128 * b + j) := by
        intro j hj _
        rw [slotOf, if_neg (by omega), if_neg (by omega),
          show (250 + 128 * b + j - 250) / 128 = b by omega,
          show (250 + 128 * b + j - 250) % 128 = j by omega]
      obtain ⟨use1, fs1, hrun1, h1'⟩ := freeIndirectLoop_spec hs hopen present hblock 128 0 freed
        (min 128 ((m - freed + 1) / 2)) use' fs' rfl (by omega) (by
          rcases Nat.lt_or_ge b 127 with hb | hb
          · have := h1 (by omega)
            omega
          · have := h2 (by omega)
            omega) h
      obtain ⟨freed', use2, fs2, hrun2, h2'⟩ := ih (b + 1) (freed + min 128 ((m - freed + 1) / 2))
        use1 fs1 (by omega) (by omega) (by omega) (h1'.mono (by omega))
      refine ⟨freed', use2, fs2, ?_, h2'⟩
      rw [releaseSecondLevel, if_pos hlt, hread, ok_bind, freeIndirectBlock, hrun1, ok_bind]
      exact hrun2

/-- The doubly indirect level. -/
theorem releaseSecond_spec (hs : ¬ live s) (hopen : fs.freeMapFile ≠ none)
    (ptrs : PtrOk use fs.dev.disk s d) (present : ∀ i < m, Present fs.dev.disk d i)
    (hm : m ≤ 16634) (ok : ReleaseOk m) {freed : ℕ}
    (hfreed : freed = min 122 m + min 128 ((m - 122 + 1) / 2))
    (h : Freeing use use' live node s d freed fs fs') :
    ∃ freed' next use'' fs'', releaseSecond d m freed fs' = .ok (freed', fs'') ∧
      Freeing use use'' live node s d next fs fs'' := by
  by_cases hc : freed < m ∧ 122 + 128 ≤ freed ∧ doublyPtr d ≠ 0
  · have hm' : 16549 ≤ m := by
      unfold ReleaseOk at ok
      omega
    have hp := present 250 (by omega)
    obtain ⟨-, hD, -⟩ := hp.2.2 le_rfl
    have hread := h.readIndex (ptrs.doubly hD) (fun _ _ => by simp)
    have e : freed = 250 := by omega
    rw [e] at h
    obtain ⟨freed', use'', fs'', hrun, h'⟩ := releaseSecondLevel_spec hs hopen ptrs present hm' hm
      128 0 freed use' fs' rfl (fun _ => e) (by omega) h
    refine ⟨freed', 16634, use'', fs'', ?_, h'⟩
    rw [releaseSecond, if_pos hc, hread, ok_bind, hrun]
  · exact ⟨freed, freed, use', fs', by rw [releaseSecond, if_neg hc], h⟩

end

/-- **Releasing a removed inode**: afterwards its sector and its data have no
purpose, and no other inode is touched. -/
theorem releaseBlocks_spec (core : Core use live node fs) (ready : MapReady live node fs)
    (hopen : fs.freeMapFile ≠ none) (hs : ¬ live s) (hs0 : s ≠ 0) (huse : use s = some .inode)
    (closed : ∀ p ∈ fs.openInodes, ∀ ino, fs.inodes p = some ino → ino.sector ≠ s)
    {d : Sector} (tree : TreeOk use fs.dev.disk s d) (ok : ReleaseOk (TreeOk.count d)) :
    ∃ use' fs', releaseBlocks fs s d = .ok fs' ∧ Release use use' live node fs fs' := by
  have h0 := tree.len_nonneg
  have h1 := tree.len_le
  have hm : bytesToSectors (inodeLength d) = TreeOk.count d := bytesToSectors_eq h0 h1
  have present : ∀ i < TreeOk.count d, Present fs.dev.disk d i :=
    fun i hi => tree.present i (tree.lt_count.mp hi)
  have start : Freeing use use live node s d 0 fs fs :=
    ⟨.refl core ready, fun i _ hp => tree.ptrs.data i hp, fun _ _ hu _ => hu⟩
  obtain ⟨use1, fs1, hrun1, f1⟩ := releaseDirect_spec hs hopen present 122 0 use fs rfl (by omega)
    start
  simp only [Nat.zero_add, Nat.sub_zero] at hrun1 f1
  obtain ⟨use2, fs2, hrun2, f2⟩ := releaseFirst_spec hs hopen tree.ptrs present f1
  obtain ⟨freed3, next3, use3, fs3, hrun3, f3⟩ := releaseSecond_spec hs hopen tree.ptrs present
    (by unfold TreeOk.count; omega) ok rfl f2
  have hlist : fs3.openInodes = fs.openInodes := by
    rw [f3.release.rest]
    rfl
  have hinodes : fs3.inodes = fs.inodes := by
    rw [f3.release.rest]
    rfl
  obtain ⟨fs4, hrun4, rel⟩ := freeMapRelease_spec f3.release.core f3.release.ready
    (by rwa [f3.freeMapFile]) (f3.others s _ huse (fun i => by simp)) hs0
    (fun x _ => by simp [Use.owner]) hs (by rw [hlist, hinodes]; exact closed)
  refine ⟨_, fs4, ?_, f3.release.trans rel⟩
  simp only [releaseBlocks, hm, hrun1, ok_bind, hrun2, hrun3, hrun4]

end

/-! ## Closing a removed inode -/

section

variable {use : ℕ → Option Use} {live : ℕ → Prop} {node : ℕ → Sector} {fs : FsState} {p : ℕ}
  {held : List ℕ}

/-- **The last `inode_close` of a removed inode** releases its sectors: the inode is
not live any more, the others are as before. -/
theorem inodeClose_removed (sound : Sound use live node (p :: held) fs)
    (hopen : fs.freeMapFile ≠ none) {ino : Inode} (hino : fs.inodes p = some ino)
    (hlast : ino.openCnt = 1) (hrem : ino.removed = true) (hs0 : ino.sector ≠ freeMapSector)
    (ok : ReleaseOk (TreeOk.count ino.data)) :
    ∃ use' fs', inodeClose fs p = .ok fs' ∧
      Sound use' (fun x => live x ∧ x ≠ ino.sector) node held fs' ∧
      fs' = ((((fs.unlistInode p).freeInode p).setMap fs'.freeMap).setDev fs'.dev) ∧
      (∀ x u, use' x = some u → use x = some u) ∧
      (∀ x, live x → x ≠ ino.sector → KeepsUse use use' x) ∧
      (∀ x, (∀ i, use x ≠ some (.data freeMapSector i)) → fs'.dev.disk x = fs.dev.disk x) := by
  have hp := sound.heap.heldListed p List.mem_cons_self
  obtain ⟨a, ha, hlive⟩ := sound.heap.listed p hp
  rw [hino, Option.some.injEq] at ha
  subst ha
  obtain ⟨huse, hdata⟩ := sound.core.opens p hp ino hino
  obtain ⟨-, tree⟩ := sound.core.tree _ hlive
  rw [← hdata] at tree
  have mem : ∀ q, q ∈ fs.openInodes.erase p ↔ q ≠ p ∧ q ∈ fs.openInodes :=
    fun q => sound.heap.nodup.mem_erase_iff
  -- the inode is off the list, but its memory is still there
  have core1 : Core use (fun x => live x ∧ x ≠ ino.sector) node (fs.unlistInode p) := by
    refine ⟨sound.core.mapSize, sound.core.zeroUsed, sound.core.used,
      fun x hx => sound.core.tree x hx.1, fun q hq b hb => ?_⟩
    exact sound.core.opens q ((mem q).mp hq).2 b hb
  have ready1 : MapReady (fun x => live x ∧ x ≠ ino.sector) node (fs.unlistInode p) := by
    rcases sound.ready.without hs0 with h | ⟨f, q, hf, map, synced⟩
    · exact .inl h
    · obtain ⟨b, h1, h2, h3⟩ := map.inode
      have hne : q ≠ p := by
        rintro rfl
        rw [hino, Option.some.injEq] at h1
        exact hs0 (h1 ▸ h2)
      exact .inr ⟨f, q, hf, ⟨map.file, (mem q).mpr ⟨hne, map.listed⟩, map.inode, map.isLive,
        map.length, map.nonempty⟩, synced⟩
  obtain ⟨use', fs1, hrun, rel⟩ := releaseBlocks_spec core1 ready1 hopen (fun h => h.2 rfl) hs0
    huse (fun q hq b hb e => ((mem q).mp hq).1
      (sound.heap.unique q ((mem q).mp hq).2 p hp b ino hb hino e)) tree ok
  have e1 := rel.rest
  have heap : HeapOk (fun x => live x ∧ x ≠ ino.sector) held ((fs.unlistInode p).freeInode p) :=
    (sound.heap.unlist hino hlast fun x hx h => ⟨h, hx⟩).1
  have rest : fs1.freeInode p =
      ((((fs.unlistInode p).freeInode p).setMap (fs1.freeInode p).freeMap).setDev
        (fs1.freeInode p).dev) := by
    rw [e1]
    rfl
  refine ⟨use', fs1.freeInode p, ?_, ⟨?_, ?_, ?_, fun x hx => ?_⟩, rest, rel.only,
    fun x hx hne => rel.owned x ⟨hx, hne⟩, rel.keep⟩
  · simp only [inodeClose, FsState.inode_ok hino, ok_bind, hlast, sub_self, if_true, inodeFree,
      hrem, hrun]
    rfl
  · refine ⟨rel.core.mapSize, rel.core.zeroUsed, rel.core.used, rel.core.tree,
      fun q hq b hb => ?_⟩
    have hq' : q ∈ fs1.openInodes := hq
    have hne : q ≠ p := by
      rw [e1] at hq'
      exact ((mem q).mp hq').1
    simp only [FsState.freeInode_inodes, Function.update_of_ne hne] at hb
    exact rel.core.opens q hq' b hb
  · rcases rel.ready with h | ⟨f, q, hf, map, synced⟩
    · exact .inl h
    · have hq' := map.listed
      have hne : q ≠ p := by
        rw [e1] at hq'
        exact ((mem q).mp hq').1
      obtain ⟨b, h1, h2, h3⟩ := map.inode
      exact .inr ⟨f, q, hf, ⟨map.file, map.listed,
        ⟨b, by simpa [Function.update_of_ne hne] using h1, h2, h3⟩, map.isLive, map.length,
        map.nonempty⟩, synced⟩
  · rw [rest]
    exact heap.sameHeap ⟨rfl, rfl, rfl, rfl⟩ fun _ h => h
  · have hk := rel.keep x fun i e => by
      rw [(sound.core.tree x hx.1).1] at e
      simp at e
    exact hk.trans (sound.synced x hx.1)

end

end Pintos
