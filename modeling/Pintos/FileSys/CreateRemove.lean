import Pintos.FileSys.Names

/-!
# Creating and removing files in a healthy file system

`filesys_create` allocates the inode's sector, builds the inode and adds the entry.
If the name turns out to be invalid or taken it gives the inode's sector back; the
data sectors it had allocated stay marked used, owned by no live inode.

`filesys_remove` clears the entry and marks the inode; its sectors are released
when the last opener closes it, which is here if nobody has it open.
-/

namespace Pintos

open Lib Lib.Block

section

variable {use use' : ℕ → Option Use} {live live' : ℕ → Prop} {node node' : ℕ → Sector}
  {held : List ℕ} {ent : ℕ → DirEntry} {cnt : ℕ} {fs fs' : FsState} {s p q t : ℕ}
  {name : CString}

/-- `free_map_allocate` on a full device. -/
theorem freeMapAllocate_full (h : freeSectors fs.freeMap = 0) :
    freeMapAllocate fs 1 = .ok (none, fs) := by
  cases hscan : bitmapScan fs.freeMap 0 1 false with
  | none => simp only [freeMapAllocate, freeMapAllocateWith, hscan]
  | some t =>
      have := freeSectors_mark (bitmapScan_some hscan)
      omega

namespace FsOk

/-- Entry `j` of the root directory was written. -/
theorem entryWritten (h : FsOk use live node held ent cnt fs) {j : ℕ} {e : DirEntry}
    (w : EntryWritten use use' live node node' held rootDirSector p ent cnt j e fs fs')
    (root : RootOk live (Function.update ent j e) (max cnt (j + 1)) fs) :
    FsOk use' live node' held (Function.update ent j e) (max cnt (j + 1)) fs' ∧
      fs'.files = fs.files := by
  obtain ⟨ino, hino, rest⟩ := w.grow.rest
  have hfiles : fs'.files = fs.files := by
    rw [rest]
    rfl
  refine ⟨⟨w.sound, w.grow.freeMapFile ▸ h.mapOpen, h.rootLive, w.dir, ?_,
    h.mapPrivate.congr w.grow.freeMapFile hfiles⟩, hfiles⟩
  refine root.congr (fun q hq a ha => .inr ⟨?_, ?_⟩) fun j hj hu => (root.entries j hj hu).1
  · rw [rest] at hq
    exact hq
  · rw [rest] at ha
    have ha' : Function.update fs.inodes p
        (some { ino with data := node' rootDirSector }) q = some a := ha
    by_cases e : q = p
    · subst e
      rw [Function.update_self, Option.some.injEq] at ha'
      subst ha'
      exact ⟨ino, hino, rfl, rfl, fun _ => rfl⟩
    · rw [Function.update_of_ne e] at ha'
      exact ⟨a, ha', rfl, rfl, fun _ => rfl⟩

/-! ## Creating -/

/-- The sector of a new inode. -/
theorem allocate (h : FsOk use live node held ent cnt fs) (free : 0 < freeSectors fs.freeMap) :
    ∃ t fs', freeMapAllocate fs 1 = .ok (some t, fs') ∧
      FsOk (Function.update use t (some .inode)) live node held ent cnt fs' ∧ t ≠ freeMapSector ∧
      t < 2 ^ 32 ∧ use t = none ∧ fs' = (fs.setMap fs'.freeMap).setDev fs'.dev ∧
      KeepsUsed use fs fs' ∧ freeSectors fs'.freeMap + 1 = freeSectors fs.freeMap := by
  obtain ⟨t, fs', hrun, sound, ht0, hnone, rest, -, keep, hfree⟩ := h.sound.allocate free
  refine ⟨t, fs', hrun, h.mapDev rest sound (fun _ hx => hx) rfl
    (keep.keepsOwned (by simp [rootDirSector, freeMapSector])), ht0, ?_, hnone, rest, keep, hfree⟩
  exact (sound.core.inside t _ (Function.update_self ..)).trans fs'.dev.size_lt

/-- What `filesys_create` has when it comes to the directory: a new inode at `t`, live
but without an entry, nothing else changed. -/
structure NewInode (use : ℕ → Option Use) (live : ℕ → Prop) (node : ℕ → Sector) (t : ℕ)
    (use' : ℕ → Option Use) (d : Sector) (held : List ℕ) (ent : ℕ → DirEntry) (cnt : ℕ)
    (fs fs' : FsState) : Prop where
  ok : FsOk use' (fun x => live x ∨ x = t) (Function.update node t d) held ent cnt fs'
  notLive : ¬ live t
  notRoot : t ≠ rootDirSector
  notMap : t ≠ freeMapSector
  small : t < 2 ^ 32
  used : use' t = some .inode
  mono : ∀ x u, use x = some u → use' x = some u
  rest : fs' = (fs.setMap fs'.freeMap).setDev fs'.dev

/-- Allocating and creating the inode, of a file of zeros. -/
theorem newInode_zeros (h : FsOk use live node held ent cnt fs) {size : ℤ} (h0 : 0 ≤ size)
    (h1 : size ≤ 8516608) (free : 1 + demand (bytesToSectors size) ≤ freeSectors fs.freeMap)
    (isDir : Bool) :
    ∃ t fs1 use' d fs2, freeMapAllocate fs 1 = .ok (some t, fs1) ∧
      inodeCreate fs1 t size isDir = .ok (true, fs2) ∧
      NewInode use live node t use' d held ent cnt fs fs2 ∧
      (∀ x, x ≠ freeMapSector → KeepsOwned use x fs.dev.disk fs2.dev.disk) ∧ inodeLength d = size ∧
      freeSectors fs2.freeMap = freeSectors fs.freeMap - (1 + demand (bytesToSectors size)) ∧
      ∀ i : ℕ, (i : ℤ) < size → fileByte fs2.dev.disk d i = 0 := by
  obtain ⟨t, fs1, hrun1, ok1, ht0, hlt, hnone, rest1, keep1, hfree1⟩ := h.allocate (by omega)
  obtain ⟨hlive, hclosed⟩ := h.sound.fresh hnone
  have ht1 : t ≠ rootDirSector := fun e => hlive (e ▸ h.rootLive)
  have closed1 : ∀ p ∈ fs1.openInodes, ∀ ino, fs1.inodes p = some ino → ino.sector ≠ t := by
    rw [rest1]
    exact hclosed
  have hroot0 : rootDirSector ≠ freeMapSector := by simp [rootDirSector, freeMapSector]
  have huse1 : Function.update use t (some Use.inode) t = some .inode := Function.update_self ..
  obtain ⟨use', d, fs2, hrun2, sound2, created, hlen, hzero, hfree2⟩ :=
    ok1.sound.create hlive huse1 closed1 h0 h1 (by omega) isDir
  have ok2 := ok1.mapDev created.rest sound2 (fun _ hx => .inl hx)
    (Function.update_of_ne (Ne.symm ht1) _ _) (created.keepsOwned huse1 hroot0)
  refine ⟨t, fs1, use', d, fs2, hrun1, hrun2, ⟨ok2, hlive, ht1, ht0, hlt,
    created.mono t _ huse1, fun x u hx => ?_, ?_⟩, fun y hy x u hx ho => ?_, hlen, by omega, hzero⟩
  · have hne : x ≠ t := fun e => by simp [e, hnone] at hx
    exact created.mono x u ((Function.update_of_ne hne _ _).trans hx)
  · rw [created.rest, rest1]
    rfl
  · have hne : x ≠ t := fun e => by simp [e, hnone] at hx
    exact (created.keepsOwned huse1 hy x u ((Function.update_of_ne hne _ _).trans hx) ho).trans
      (keep1.keepsOwned hy x u hx ho)

/-- Allocating and creating the inode. -/
theorem newInode (h : FsOk use live node held ent cnt fs) {size : ℤ} (h0 : 0 ≤ size)
    (h1 : size ≤ 8516608) (free : 1 + demand (bytesToSectors size) ≤ freeSectors fs.freeMap)
    (isDir : Bool) :
    ∃ t fs1 use' d fs2, freeMapAllocate fs 1 = .ok (some t, fs1) ∧
      inodeCreate fs1 t size isDir = .ok (true, fs2) ∧
      NewInode use live node t use' d held ent cnt fs fs2 ∧
      (∀ x, x ≠ freeMapSector → KeepsOwned use x fs.dev.disk fs2.dev.disk) ∧ inodeLength d = size ∧
      freeSectors fs2.freeMap = freeSectors fs.freeMap - (1 + demand (bytesToSectors size)) := by
  obtain ⟨t, fs1, use', d, fs2, hrun1, hrun2, new, keep, hlen, hfree, -⟩ := h.newInode_zeros h0 h1 free isDir
  exact ⟨t, fs1, use', d, fs2, hrun1, hrun2, new, keep, hlen, hfree⟩

/-- Giving the inode's sector back, which leaves the other files alone. -/
theorem dropInode_keeps {d : Sector} {fs2 : FsState} (h : FsOk use live node held ent cnt fs)
    (new : NewInode use live node t use' d held ent cnt fs fs2) :
    ∃ use'' fs3, freeMapRelease fs2 t 1 = .ok fs3 ∧
      FsOk use'' live (Function.update node t d) held ent cnt fs3 ∧
      fs3 = (fs.setMap fs3.freeMap).setDev fs3.dev ∧ KeepsUse use use'' rootDirSector ∧
      ∀ x, x ≠ freeMapSector → KeepsOwned use' x fs2.dev.disk fs3.dev.disk := by
  have hold := new.ok.sound
  have same2 : SameHeap fs fs2 := by
    rw [new.rest]
    exact ⟨rfl, rfl, rfl, rfl⟩
  obtain ⟨fm, r, hfm, map, hsync⟩ := new.ok.mapFile
  obtain ⟨fm0, r0, -, map0, -⟩ := h.mapFile
  -- without the new inode
  have core2 : Core use' live (Function.update node t d) fs2 :=
    ⟨hold.core.mapSize, hold.core.zeroUsed, hold.core.used, fun x hx => hold.core.tree x (.inl hx),
      hold.core.opens⟩
  have ready2 : MapReady live (Function.update node t d) fs2 :=
    .inr ⟨fm, r, hfm, ⟨map.file, map.listed, map.inode, map0.isLive, map.length, map.nonempty⟩, hsync⟩
  have heap2 : HeapOk live held fs2 := h.sound.heap.sameHeap same2 fun _ hx => hx
  have closed : ∀ p ∈ fs2.openInodes, ∀ ino, fs2.inodes p = some ino → ino.sector ≠ t := by
    intro p hp ino hino e
    obtain ⟨a, ha, hlive⟩ := heap2.listed p hp
    rw [hino, Option.some.injEq] at ha
    exact new.notLive (e ▸ ha ▸ hlive)
  have sound2 : Sound use' live (Function.update node t d) held fs2 :=
    ⟨core2, ready2, heap2, fun x hx => hold.synced x (.inl hx)⟩
  have ok2 : FsOk use' live (Function.update node t d) held ent cnt fs2 := by
    refine ⟨sound2, new.ok.mapOpen, h.rootLive, new.ok.dir, ?_, new.ok.mapPrivate⟩
    exact h.root.congr (.of_same same2.openInodes same2.inodes) fun j hj hu =>
      (h.root.entries j hj hu).1
  obtain ⟨fs3, hrun, rel⟩ := freeMapRelease_spec core2 ready2 ok2.mapOpen new.used new.notMap
    (fun x _ => by simp [Use.owner]) new.notLive closed
  have sound3 : Sound (Function.update use' t none) live (Function.update node t d) held fs3 := by
    refine ⟨rel.core, rel.ready, heap2.sameHeap ?_ fun _ hx => hx, fun x hx => ?_⟩
    · rw [rel.rest]
      exact ⟨rfl, rfl, rfl, rfl⟩
    · refine (rel.keep x fun i e => ?_).trans (sound2.synced x hx)
      rw [(core2.tree x hx).1] at e
      simp at e
  have keep : ∀ x, x ≠ freeMapSector → KeepsOwned use' x fs2.dev.disk fs3.dev.disk := by
    intro x hx t' u hu ho
    refine rel.keep t' fun i e => ?_
    rw [hu, Option.some.injEq] at e
    rw [e, Use.owner, Option.some.injEq] at ho
    exact hx ho.symm
  refine ⟨_, fs3, hrun, ok2.mapDev rel.rest sound3 (fun _ hx => hx) rfl
    (keep _ (by simp [rootDirSector, freeMapSector])), ?_,
    fun x u hx ho => rel.owned _ h.rootLive x u (new.mono x u hx) ho, keep⟩
  rw [rel.rest, new.rest]
  rfl

/-- Nothing is open on the sector of the new inode. -/
theorem notOpen {d : Sector} {fs2 : FsState} (h : FsOk use live node held ent cnt fs)
    (new : NewInode use live node t use' d held ent cnt fs fs2) :
    ∀ q ∈ fs2.openInodes, ∀ ino, fs2.inodes q = some ino → ino.sector ≠ t := by
  rw [new.rest]
  intro q hq ino hino e
  obtain ⟨a, ha, hlive⟩ := h.sound.heap.listed q hq
  have hino' : fs.inodes q = some ino := hino
  rw [hino', Option.some.injEq] at ha
  exact new.notLive (e ▸ ha ▸ hlive)

/-- The root directory as `dir_add` finds it. -/
theorem beforeEntry {d : Sector} {fs2 : FsState} {cost : ℕ} (h : FsOk use live node held ent cnt fs)
    (new : NewInode use live node t use' d held ent cnt fs fs2) (o : OpenAt rootDirSector p fs)
    (keep : ∀ x, x ≠ freeMapSector → KeepsOwned use x fs.dev.disk fs2.dev.disk)
    (hfree2 : freeSectors fs2.freeMap = freeSectors fs.freeMap - cost)
    (room : DirRoom fs.dev.disk (fs.dev.disk rootDirSector) (freeSectors fs.freeMap - cost)) :
    OpenAt rootDirSector p fs2 ∧ DirRoom fs2.dev.disk (Function.update node t d rootDirSector)
      (freeSectors fs2.freeMap) ∧ ∀ ino, fs2.inodes p = some ino → ino.denyWriteCnt = 0 := by
  have o2 : OpenAt rootDirSector p fs2 := by
    rw [new.rest]
    exact ⟨o.listed, o.isOpen, o.alone⟩
  refine ⟨o2, ?_, fun ino hino => ?_⟩
  · rw [Function.update_of_ne (Ne.symm new.notRoot), hfree2]
    rw [h.sound.synced _ h.rootLive] at room
    exact room.congr (h.sound.core.tree _ h.rootLive).2
      (keep _ (by simp [rootDirSector, freeMapSector]))
  · obtain ⟨a, ha, hsec⟩ := o2.isOpen
    rw [hino, Option.some.injEq] at ha
    exact new.ok.root.writable p o2.listed ino hino (ha ▸ hsec)

/-- The sectors a directory of `cnt` entries takes when another one is written behind them. -/
def entryCost (cnt : ℕ) : ℕ := if pastBlocks (20 * cnt) 20 (20 * cnt) then 1 else 0

/-- Writing entry `j` costs a sector only if the directory grows. -/
theorem writeEntry_cost (h : FsOk use live node held ent cnt fs) (o : OpenAt rootDirSector p fs)
    {j : ℕ} {e : DirEntry} (hj : j ≤ cnt) (hsmall : j < cnt ∨ 20 * (cnt : ℤ) < 62464)
    (hwrite : inodeWriteAt fs p (byteAt e) 20 (20 * j) = .ok (20, fs')) :
    freeSectors fs.freeMap ≤ freeSectors fs'.freeMap + if j < cnt then 0 else entryCost cnt := by
  obtain ⟨ino, hino, -, hdata⟩ := o.data h.sound.core
  have hroot : inodeLength ino.data = 20 * cnt := by rw [hdata, h.dir.length]
  have hmax := (h.sound.core.tree _ h.rootLive).2.len_le
  rw [h.dir.length] at hmax
  by_cases hlt : j < cnt
  · have hpast : ¬ pastBlocks (20 * cnt) 20 (20 * j) := by
      unfold pastBlocks
      rw [wrap32_of_range (by push_cast; omega) (by push_cast; omega),
        Int.tdiv_eq_ediv_of_nonneg (by push_cast; omega), Int.tdiv_eq_ediv_of_nonneg (by omega)]
      push_cast
      omega
    have hle : wrap32 ((20 * j : ℕ) + 20) ≤ inodeLength ino.data := by
      rw [hroot, wrap32_of_range (by push_cast; omega) (by push_cast; omega)]
      push_cast
      omega
    rw [inodeWriteAt_freeMap hino (hroot ▸ hpast) hle hwrite]
    exact Nat.le_add_right _ _
  · have e0 : j = cnt := by omega
    subst e0
    have hn : (sectorsToAdd (20 * j) 20 (20 * j : ℕ) : ℤ) = ((20 * j : ℕ) + 20 - 20 * j + 511) / 512 :=
      sectorsToAdd_eq (by omega) (by push_cast; omega) (by push_cast; omega)
    push_cast at hn
    have hcost := inodeWriteAt_cost hino (hroot ▸ hsmall.resolve_left hlt)
      (fun _ => by rw [hroot]; omega) hwrite
    rw [hroot] at hcost
    rw [if_neg hlt]
    exact hcost

/-- What `filesys_create` leaves when it succeeds: the file at `t` has the entry `e`, which is
entry `j` of the root directory. -/
structure Added (use : ℕ → Option Use) (live : ℕ → Prop) (node : ℕ → Sector) (held : List ℕ)
    (ent : ℕ → DirEntry) (cnt : ℕ) (name : CString) (size : ℤ) (t j : ℕ) (e : DirEntry)
    (use' : ℕ → Option Use) (node' : ℕ → Sector) (fs fs' : FsState) : Prop where
  ok : FsOk use' (fun x => live x ∨ x = t) node' held (Function.update ent j e) (max cnt (j + 1)) fs'
  files : fs'.files = fs.files
  mapFile : fs'.freeMapFile = fs.freeMapFile
  mono : ∀ x u, use x = some u → use' x = some u
  notLive : ¬ live t
  notRoot : t ≠ rootDirSector
  notMap : t ≠ freeMapSector
  slot : j ≤ cnt
  wasFree : j < cnt → (ent j).inUse = false
  wasUsed : ∀ k < j, (ent k).inUse = true
  named : Matches (fun _ => e) name 0
  sector : e.sector = t
  length : inodeLength (node' t) = size
  nodes : ∀ x, live x → x ≠ rootDirSector → node' x = node x
  keep : ∀ x, live x → x ≠ rootDirSector → x ≠ freeMapSector →
    KeepsOwned use x fs.dev.disk fs'.dev.disk
  closed : ∀ q ∈ fs'.openInodes, ∀ ino, fs'.inodes q = some ino → ino.sector ≠ t
  cost : j < cnt ∨ 20 * (cnt : ℤ) < 62464 → freeSectors fs.freeMap ≤
    freeSectors fs'.freeMap + (1 + demand (bytesToSectors size)) +
      if j < cnt then 0 else entryCost cnt

/-- A new name, with the root directory open at `p`, and its end: the file consists of zeros, and the
open files stay where they are. -/
theorem createIn_added_zeros (h : FsOk use live node (p :: held) ent cnt fs)
    (o : OpenAt rootDirSector p fs) (hz : ∀ c ∈ name, c ≠ 0) {size : ℤ} (h0 : 0 ≤ size)
    (h1 : size ≤ 8516608) (hfree : 1 + demand (bytesToSectors size) ≤ freeSectors fs.freeMap)
    (room : DirRoom fs.dev.disk (fs.dev.disk rootDirSector)
      (freeSectors fs.freeMap - (1 + demand (bytesToSectors size)))) (isDir : Bool)
    (hname : name ≠ []) (hlen : name.length ≤ nameMax) (hnew : ∀ i < cnt, ¬ Matches ent name i) :
    ∃ t j e fs1 use' node' fs', createIn fs p name size isDir = .ok (true, t, fs1) ∧
      finishCreate fs1 p true t = .ok (true, fs') ∧
      Added use live node held ent cnt name size t j e use' node' fs fs' ∧
      (∀ i : ℕ, (i : ℤ) < size → fileByte fs'.dev.disk (node' t) i = 0) ∧ SameInodes fs fs' := by
  obtain ⟨t, fs1, use2, d, fs2, hrun1, hrun2, new, keep, hsize, hfree2, hzero⟩ :=
    h.newInode_zeros h0 h1 hfree isDir
  obtain ⟨o2, room2, deny⟩ := h.beforeEntry new o keep hfree2 room
  have hroot0 : rootDirSector ≠ freeMapSector := by simp [rootDirSector, freeMapSector]
  rcases dirAdd_spec new.ok.sound new.ok.rootLive hroot0 o2 deny new.ok.dir hz new.small room2 with
    ⟨hbad, -⟩ | ⟨-, use3, node3, fs3, j, e, hadd, hj, hslot, hused, hm, hsec, hwrite, written⟩
  · rcases hbad with hc | hc | ⟨i, hi, hc⟩
    · exact absurd hc hname
    · omega
    · exact absurd hc (hnew i hi)
  have root3 := new.ok.root.add hj hsec (.inr rfl) new.notMap (fun e => absurd e new.notRoot)
    (fun _ i hi hu e => new.notLive (e ▸ (h.root.entries i hi hu).1))
    (fun q hq ino hino _ e => h.notOpen new q hq ino hino e)
  obtain ⟨ok3, hfiles3⟩ := new.ok.entryWritten written root3
  obtain ⟨fs4, hrun4, ok4, same4, closes4⟩ := ok3.closeRoot (written.grow.openAt o2)
  have hnode : node3 t = d := by rw [written.grow.nodes t new.notRoot, Function.update_self]
  have huse := (new.ok.sound.core.tree _ new.ok.rootLive).1
  refine ⟨t, j, e, fs3, use3, node3, fs4, ?_, ?_, ⟨ok4, ?_, ?_,
    fun x u hx => written.grow.mono x u (new.mono x u hx), new.notLive, new.notRoot, new.notMap, hj,
    hslot, hused, hm, hsec, ?_, fun x hx hr => ?_, fun x hx hr hx0 => ?_,
    fun q hq ino hino => ?_, fun hsmall => ?_⟩, fun i hi => ?_, ?_⟩
  · simp only [createIn, hrun1, ok_bind, hrun2, if_true, hadd]
    rfl
  · simp only [finishCreate, Bool.not_true, Bool.false_eq_true, false_and, if_false, hrun4, ok_bind]
    rfl
  · rw [same4.files, hfiles3, new.rest]
    rfl
  · rw [same4.freeMapFile, written.grow.freeMapFile, new.rest]
    rfl
  · rw [hnode, hsize]
  · have hne : x ≠ t := fun e => new.notLive (e ▸ hx)
    rw [written.grow.nodes x hr, Function.update_of_ne hne]
  · -- neither the creation nor the entry touches what another file owns
    have keep3 := written.grow.keepsOwned huse hr hx0
    intro y u hy ho
    rw [same4.dev]
    exact (keep3 y u (new.mono y u hy) ho).trans (keep x hx0 y u hy ho)
  · obtain ⟨hq3, hback⟩ := closes4 q hq
    obtain ⟨a, ha, hsame⟩ := hback ino hino
    rw [← hsame]
    obtain ⟨b, hb, rest⟩ := written.grow.rest
    rw [rest] at hq3 ha
    have ha' : Function.update fs2.inodes p (some { b with data := node3 rootDirSector }) q =
        some a := ha
    by_cases hqp : q = p
    · rw [hqp, Function.update_self, Option.some.injEq] at ha'
      rw [← ha']
      exact h.notOpen new p (hqp ▸ hq3) b hb
    · rw [Function.update_of_ne hqp] at ha'
      exact h.notOpen new q hq3 a ha'
  · have hcost := new.ok.writeEntry_cost o2 hj hsmall hwrite
    rw [same4.freeMap]
    omega
  · -- the zeros are still there
    have keep3 := written.grow.keepsOwned huse new.notRoot new.notMap
    have tree := (new.ok.sound.core.tree t (.inr rfl)).2
    rw [Function.update_self] at tree
    rw [same4.dev, hnode, TreeOk.fileByte_congr tree.ptrs keep3 (tree.present _ (by omega)), hzero i hi]
  · have hnew : SameInodes fs fs2 := .of_eq (by rw [new.rest]; rfl)
    refine (hnew.trans ?_ written.grow.sameInodes).trans ?_
      (ok4.sound.heap.sameInodes_closes same4.files closes4)
    · rw [new.rest]
      rfl
    · rw [hfiles3, new.rest]
      rfl

/-- A new name, with the root directory open at `p`, and its end. -/
theorem createIn_added (h : FsOk use live node (p :: held) ent cnt fs)
    (o : OpenAt rootDirSector p fs) (hz : ∀ c ∈ name, c ≠ 0) {size : ℤ} (h0 : 0 ≤ size)
    (h1 : size ≤ 8516608) (hfree : 1 + demand (bytesToSectors size) ≤ freeSectors fs.freeMap)
    (room : DirRoom fs.dev.disk (fs.dev.disk rootDirSector)
      (freeSectors fs.freeMap - (1 + demand (bytesToSectors size)))) (isDir : Bool)
    (hname : name ≠ []) (hlen : name.length ≤ nameMax) (hnew : ∀ i < cnt, ¬ Matches ent name i) :
    ∃ t j e fs1 use' node' fs', createIn fs p name size isDir = .ok (true, t, fs1) ∧
      finishCreate fs1 p true t = .ok (true, fs') ∧
      Added use live node held ent cnt name size t j e use' node' fs fs' := by
  obtain ⟨t, j, e, fs1, use', node', fs', hrun1, hrun2, added, -⟩ :=
    h.createIn_added_zeros o hz h0 h1 hfree room isDir hname hlen hnew
  exact ⟨t, j, e, fs1, use', node', fs', hrun1, hrun2, added⟩

/-- What a refused creation leaves: the files that were there, and nothing else. -/
structure Refused (use : ℕ → Option Use) (live : ℕ → Prop) (node : ℕ → Sector) (held : List ℕ)
    (ent : ℕ → DirEntry) (cnt : ℕ) (use' : ℕ → Option Use) (node' : ℕ → Sector) (fs fs' : FsState) :
    Prop where
  ok : FsOk use' live node' held ent cnt fs'
  files : fs'.files = fs.files
  mapFile : fs'.freeMapFile = fs.freeMapFile
  owned : KeepsUse use use' rootDirSector
  nodes : ∀ x, live x → node' x = node x
  keep : ∀ x, x ≠ freeMapSector → KeepsOwned use x fs.dev.disk fs'.dev.disk
  inodes : SameInodes fs fs'

/-- A creation on a full device, with the root directory open at `p`, and its end. -/
theorem createIn_full (h : FsOk use live node (p :: held) ent cnt fs) (o : OpenAt rootDirSector p fs)
    (hfull : freeSectors fs.freeMap = 0) (name : CString) (size : ℤ) (isDir : Bool) :
    ∃ fs', createIn fs p name size isDir = .ok (false, 0, fs) ∧
      finishCreate fs p false 0 = .ok (false, fs') ∧
      Refused use live node held ent cnt use node fs fs' := by
  obtain ⟨fs', hrun, ok', same, closes⟩ := h.closeRoot o
  refine ⟨fs', ?_, ?_, ok', same.files, same.freeMapFile, .refl _ _, fun _ _ => rfl, fun _ _ _ _ _ _ => ?_,
    ok'.sound.heap.sameInodes_closes same.files closes⟩
  · simp only [createIn, freeMapAllocate_full hfull, ok_bind]
    rfl
  · simp only [finishCreate, ne_eq, not_true, and_false, if_false, hrun, ok_bind]
    rfl
  · rw [same.dev]

/-- A name that is taken or invalid: the inode's sector goes back. -/
theorem createIn_refused (h : FsOk use live node (p :: held) ent cnt fs)
    (o : OpenAt rootDirSector p fs) (hz : ∀ c ∈ name, c ≠ 0) {size : ℤ} (h0 : 0 ≤ size)
    (h1 : size ≤ 8516608) (hfree : 1 + demand (bytesToSectors size) ≤ freeSectors fs.freeMap)
    (room : DirRoom fs.dev.disk (fs.dev.disk rootDirSector)
      (freeSectors fs.freeMap - (1 + demand (bytesToSectors size)))) (isDir : Bool)
    (hbad : ¬ (name ≠ [] ∧ name.length ≤ nameMax ∧ ∀ i < cnt, ¬ Matches ent name i)) :
    ∃ t fs1 use' node' fs', createIn fs p name size isDir = .ok (false, t, fs1) ∧
      finishCreate fs1 p false t = .ok (false, fs') ∧
      Refused use live node held ent cnt use' node' fs fs' := by
  obtain ⟨t, fs1, use2, d, fs2, hrun1, hrun2, new, keep, -, hfree2⟩ := h.newInode h0 h1 hfree isDir
  obtain ⟨o2, room2, deny⟩ := h.beforeEntry new o keep hfree2 room
  rcases dirAdd_spec new.ok.sound new.ok.rootLive (by simp [rootDirSector, freeMapSector]) o2
    deny new.ok.dir hz new.small room2 with ⟨-, hadd⟩ | ⟨hgood, -⟩
  · obtain ⟨use3, fs3, hrun3, ok3, rest3, owned3, keep3⟩ := h.dropInode_keeps new
    have o3 : OpenAt rootDirSector p fs3 := by
      rw [rest3]
      exact ⟨o.listed, o.isOpen, o.alone⟩
    obtain ⟨fs4, hrun4, ok4, same4, closes4⟩ := ok3.closeRoot o3
    have hfiles3 : fs3.files = fs.files := by
      rw [rest3]
      rfl
    refine ⟨t, fs2, use3, _, fs4, ?_, ?_, ok4, same4.files.trans hfiles3, ?_, owned3, fun x hx => ?_,
      fun x hx y u hy ho => ?_, ?_⟩
    · simp only [createIn, hrun1, ok_bind, hrun2, if_true, hadd]
      rfl
    · have ht : t ≠ 0 := new.notMap
      simp only [finishCreate, Bool.not_false, true_and, ne_eq, ht, not_false_eq_true, if_true,
        hrun3, ok_bind, hrun4]
      rfl
    · rw [same4.freeMapFile, rest3]
      rfl
    · have hne : x ≠ t := fun e => new.notLive (e ▸ hx)
      exact Function.update_of_ne hne _ _
    · rw [same4.dev]
      exact (keep3 x hx y u (new.mono y u hy) ho).trans (keep x hx y u hy ho)
    · refine SameInodes.trans (.of_eq ?_) hfiles3 (ok4.sound.heap.sameInodes_closes same4.files closes4)
      rw [rest3]
      rfl
  · exact absurd hgood hbad

/-- The middle of `filesys_create`, with the root directory open at `p`, and its end. -/
theorem createIn_finish (h : FsOk use live node (p :: held) ent cnt fs)
    (o : OpenAt rootDirSector p fs) (hz : ∀ c ∈ name, c ≠ 0) {size : ℤ} (ok : CreateOk fs size)
    (isDir : Bool) :
    ∃ success sector fs1 use' live' node' ent' cnt' fs',
      createIn fs p name size isDir = .ok (success, sector, fs1) ∧
      finishCreate fs1 p success sector = .ok (success, fs') ∧
      FsOk use' live' node' held ent' cnt' fs' ∧ fs'.files = fs.files ∧
      fs'.freeMapFile = fs.freeMapFile ∧ KeepsUse use use' rootDirSector := by
  rcases ok with hfull | ⟨h0, h1, hfree, room⟩
  · obtain ⟨fs', hrun1, hrun2, refused⟩ := h.createIn_full o hfull name size isDir
    exact ⟨false, 0, fs, use, live, node, ent, cnt, fs', hrun1, hrun2, refused.ok, refused.files,
      refused.mapFile, refused.owned⟩
  by_cases hok : name ≠ [] ∧ name.length ≤ nameMax ∧ ∀ i < cnt, ¬ Matches ent name i
  · obtain ⟨t, j, e, fs1, use', node', fs', hrun1, hrun2, added⟩ :=
      h.createIn_added o hz h0 h1 hfree room isDir hok.1 hok.2.1 hok.2.2
    exact ⟨true, t, fs1, use', _, node', _, _, fs', hrun1, hrun2, added.ok, added.files,
      added.mapFile, fun x u hx _ => added.mono x u hx⟩
  · obtain ⟨t, fs1, use', node', fs', hrun1, hrun2, refused⟩ :=
      h.createIn_refused o hz h0 h1 hfree room isDir hok
    exact ⟨false, t, fs1, use', live, node', ent, cnt, fs', hrun1, hrun2, refused.ok, refused.files,
      refused.mapFile, refused.owned⟩

/-- **`filesys_create`** under `CreateOk`. -/
theorem filesysCreate (h : FsOk use live node held ent cnt fs) (hz : ∀ c ∈ name, c ≠ 0) {size : ℤ}
    (ok : CreateOk fs size) (isDir : Bool) :
    ∃ success use' live' node' ent' cnt' fs',
      filesysCreate fs name size isDir = .ok (success, fs') ∧
      FsOk use' live' node' held ent' cnt' fs' ∧ fs'.files = fs.files ∧
      fs'.freeMapFile = fs.freeMapFile ∧ KeepsUse use use' rootDirSector := by
  by_cases hname : name = []
  · refine ⟨false, use, live, node, ent, cnt, fs, ?_, h, rfl, rfl, .refl _ _⟩
    rw [Pintos.filesysCreate, if_pos hname]
  obtain ⟨p, fs1, hrun1, h1, o1, same1⟩ := h.openInode h.rootLive
  have ok1 : CreateOk fs1 size := by
    unfold CreateOk
    rw [same1.freeMap, same1.dev]
    exact ok
  obtain ⟨success, sector, fs2, use', live', node', ent', cnt', fs', hrun2, hrun3, ok', hfiles,
    hmap, owned⟩ := h1.createIn_finish o1 hz ok1 isDir
  refine ⟨success, use', live', node', ent', cnt', fs', ?_, ok', hfiles.trans same1.files,
    hmap.trans same1.freeMapFile, owned⟩
  simp only [Pintos.filesysCreate, if_neg hname, hrun1, ok_bind, hrun2, hrun3]

/-! ## Removing -/

/-- Marking an inode as removed once no entry names it. -/
theorem markRemoved (h : FsOk use live node held ent cnt fs) {ino : Inode} (hq : q ∈ fs.openInodes)
    (hino : fs.inodes q = some ino) (h0 : ino.sector ≠ freeMapSector)
    (h1 : ino.sector ≠ rootDirSector)
    (unnamed : ∀ j < cnt, (ent j).inUse = true → (ent j).sector ≠ ino.sector) :
    FsOk use live node held ent cnt (fs.setInode q { ino with removed := true }) := by
  have get : ∀ r a, (fs.setInode q { ino with removed := true }).inodes r = some a →
      (r = q ∧ a = { ino with removed := true }) ∨ (r ≠ q ∧ fs.inodes r = some a) := by
    intro r a ha
    by_cases e : r = q
    · subst e
      simp only [FsState.setInode_inodes, Function.update_self, Option.some.injEq] at ha
      exact .inl ⟨rfl, ha.symm⟩
    · simp only [FsState.setInode_inodes, Function.update_of_ne e] at ha
      exact .inr ⟨e, ha⟩
  refine ⟨⟨h.sound.core.setInode hq hino rfl rfl, h.sound.ready.setInode hino rfl fun _ => rfl,
    h.sound.heap.setInode_same hq hino rfl rfl rfl, h.sound.synced⟩, h.mapOpen, h.rootLive, h.dir,
    ⟨h.root.entries, h.root.dots, h.root.distinct, fun r hr a ha hrem => ?_, fun r hr a ha hsec => ?_⟩,
    h.mapPrivate⟩
  · rcases get r a ha with ⟨rfl, rfl⟩ | ⟨-, ha⟩
    · exact ⟨h0, h1, unnamed⟩
    · exact h.root.removed r hr a ha hrem
  · rcases get r a ha with ⟨rfl, rfl⟩ | ⟨-, ha⟩
    · exact absurd hsec h1
    · exact h.root.writable r hr a ha hsec

/-- After `inode_open`, an inode with a single opener was closed before. -/
theorem closeOk_opened (h : FsOk use live node held ent cnt fs) (hs : live s)
    (hrun : inodeOpen fs s = .ok (q, fs'))
    (ok : findOpen fs s = none → ReleaseOk (TreeOk.count (fs.dev.disk s))) {ino : Inode}
    (hino : fs'.inodes q = some ino) (hlast : ino.openCnt = 1) (hdata : ino.data = node s) :
    ReleaseOk (TreeOk.count ino.data) := by
  rcases inodeOpen_cases hrun with ⟨a, hfind, ha, rfl⟩ | ⟨hfind, -, -⟩
  · rw [FsState.setInode_inodes, Function.update_self, Option.some.injEq] at hino
    have := h.sound.heap.refs q (findOpen_some hfind).1 a ha
    rw [← hino] at hlast
    simp only at hlast
    omega
  · have := ok hfind
    rwa [h.sound.synced s hs, ← hdata] at this

/-- What a removal leaves: entry `i` is cleared, and the other files are as before. -/
structure Removed (use : ℕ → Option Use) (node : ℕ → Sector) (held : List ℕ) (ent : ℕ → DirEntry)
    (cnt : ℕ) (name : CString) (i : ℕ) (use' : ℕ → Option Use) (live' : ℕ → Prop) (node' : ℕ → Sector)
    (fs fs' : FsState) : Prop where
  ok : FsOk use' live' node' held (Function.update ent i (ent i).clear) (max cnt (i + 1)) fs'
  files : fs'.files = fs.files
  mapFile : fs'.freeMapFile = fs.freeMapFile
  owned : KeepsUse use use' rootDirSector
  slot : i < cnt
  named : Matches ent name i
  nodes : ∀ x, x ≠ rootDirSector → node' x = node x
  keep : ∀ x, x ≠ rootDirSector → x ≠ freeMapSector → KeepsOwned use x fs.dev.disk fs'.dev.disk
  inodes : SameInodes fs fs'

/-- `filesys_remove` under `RemoveOk`: the first entry of the name is cleared, or there is none. -/
theorem filesysRemove_keeps (h : FsOk use live node held ent cnt fs) (ok : RemoveOk fs name) :
    (∃ i use' live' node' fs', filesysRemove fs name = .ok (true, fs') ∧
      Removed use node held ent cnt name i use' live' node' fs fs') ∨
    ((∀ i < cnt, ¬ Matches ent name i) ∧ ∃ fs', filesysRemove fs name = .ok (false, fs') ∧
      FsOk use live node held ent cnt fs' ∧ SameFiles fs fs' ∧ SameInodes fs fs') := by
  obtain ⟨hself, hparent, hok⟩ := ok
  obtain ⟨p, fs1, hrun1, h1, o1, same1⟩ := h.openInode h.rootLive
  rcases lookup_spec h1.sound.core h1.rootLive o1 h1.dir name with
    ⟨i, hi, hm, -, hlook⟩ | ⟨hnone, hlook⟩
  · left
    obtain ⟨hlive, hsec0⟩ := h1.root.entries i hi hm.1
    have hsec1 : (ent i).sector ≠ rootDirSector := by
      intro e
      rcases h1.root.dots i hi hm.1 e with h2 | h2
      · exact hself (hm.2.symm.trans h2)
      · exact hparent (hm.2.symm.trans h2)
    obtain ⟨q, fs2, hrun2, h2, o2, same2⟩ := h1.openInode hlive
    have o2' := o1.opens hrun2 h1.sound.heap h2.sound.heap
    have hqp : q ≠ p := by
      rintro rfl
      obtain ⟨a, ha, hs⟩ := o2.isOpen
      obtain ⟨b, hb, hr⟩ := o2'.isOpen
      rw [ha, Option.some.injEq] at hb
      exact hsec1 (hs.symm.trans (hb ▸ hr))
    -- the entry is cleared
    obtain ⟨pino, hpino, hpsec⟩ := o2'.isOpen
    have deny : ∀ ino, fs2.inodes p = some ino → ino.denyWriteCnt = 0 := by
      intro ino hino
      rw [hpino, Option.some.injEq] at hino
      exact hino ▸ h2.root.writable p o2'.listed pino hpino hpsec
    obtain ⟨use3, node3, fs3, hrun3, written⟩ := writeEntry_spec h2.sound h2.rootLive
      (by simp [rootDirSector, freeMapSector]) o2' deny h2.dir hi.le (fun e => by omega)
      (ent i).clear
    have root3 := h2.root.clear hi (ent i).inUse_clear
    obtain ⟨h3, hfiles3⟩ := h2.entryWritten written root3
    -- the inode is marked
    obtain ⟨qino, hqino, hqsec⟩ := o2.isOpen
    have hlist3 : fs3.openInodes = fs2.openInodes := by
      obtain ⟨a, -, rest⟩ := written.grow.rest
      rw [rest]
      rfl
    have hqino3 : fs3.inodes q = some qino := by
      obtain ⟨a, -, rest⟩ := written.grow.rest
      rw [rest]
      exact (Function.update_of_ne hqp _ _).trans hqino
    have unnamed : ∀ j < max cnt (i + 1), (Function.update ent i (ent i).clear j).inUse = true →
        (Function.update ent i (ent i).clear j).sector ≠ qino.sector := by
      intro j hj hu e
      rcases RootOk.entry_cases hi.le hj hu with ⟨-, -, hc⟩ | ⟨hjc, hne, he, hu'⟩
      · simp [(ent i).inUse_clear] at hc
      · rw [he, hqsec] at e
        exact hne (h2.root.distinct j hjc i hi hu' hm.1 e (e ▸ hsec1))
    have h4 := h3.markRemoved (hlist3 ▸ o2.listed) hqino3 (hqsec ▸ hsec0) (hqsec ▸ hsec1) unnamed
    have hqino4 : (fs3.setInode q { qino with removed := true }).inodes q =
        some { qino with removed := true } := Function.update_self ..
    have closeOk : CloseOk (fs3.setInode q { qino with removed := true }) q := by
      intro a ha hlast _
      rw [hqino4, Option.mem_some_iff] at ha
      subst ha
      have hdata : qino.data = node (ent i).sector :=
        (h2.sound.core.opens q o2.listed qino hqino).2.trans (by rw [hqsec])
      refine show ReleaseOk (TreeOk.count qino.data) from
        h1.closeOk_opened hlive hrun2 (fun hfind => ?_) hqino hlast hdata
      have hcnt : i < rootCount fs := by
        rw [h.rootCount_eq]
        exact hi
      have hent := h.rootEntry_eq hi
      have hmatch : Matches (rootEntry fs) name i := by
        unfold Matches
        rw [hent]
        exact hm
      have := hok i hcnt hmatch
      rw [hent] at this
      rw [same1.dev]
      refine this ?_
      -- the inode is not the root directory's, which is the only one opened since
      cases hf : findOpen fs (ent i).sector with
      | none => rfl
      | some r =>
          obtain ⟨hr, a, ha, hsa⟩ := findOpen_some hf
          have o0 := (h.sound.heap.openAt hr ha).opens hrun1 h.sound.heap h1.sound.heap
          obtain ⟨b, hb, hsb⟩ := o0.isOpen
          exact absurd (hsb.trans hsa) (findOpen_none hfind r o0.listed b hb)
    have off4 : OffMap (fs3.setInode q { qino with removed := true }) q :=
      (h4.offMap_iff (hlist3 ▸ o2.listed) hqino4).mpr (hqsec ▸ hsec0)
    obtain ⟨use5, live5, fs5, hrun5, h5, hfiles5, hmap5, closes5, owned5, keep5⟩ :=
      h4.closeInode_keeps off4 closeOk
    -- the root directory is closed
    have o4 : OpenAt rootDirSector p (fs3.setInode q { qino with removed := true }) := by
      obtain ⟨a, ha, hs⟩ := (written.grow.openAt o2').isOpen
      have := h4.sound.heap.openAt (hlist3 ▸ o2'.listed)
        ((Function.update_of_ne (Ne.symm hqp) _ _).trans ha)
      rwa [hs] at this
    have o5 := o4.closes closes5 h5.sound.heap
      (h5.sound.heap.heldListed p List.mem_cons_self)
    obtain ⟨fs6, hrun6, h6, same6, closes6⟩ := h5.closeRoot o5
    have hfiles2 : fs2.files = fs.files := same2.files.trans same1.files
    have hinodes2 : SameInodes fs fs2 := (h.sound.heap.sameInodes_open hrun1).trans same1.files
      (h1.sound.heap.sameInodes_open hrun2)
    have hinodes4 : SameInodes fs (fs3.setInode q { qino with removed := true }) :=
      (hinodes2.trans hfiles2 written.grow.sameInodes).trans (hfiles3.trans hfiles2) (.setInode hqino3 rfl)
    have hinodes5 := hinodes4.trans (hfiles3.trans hfiles2) (h5.sound.heap.sameInodes_closes hfiles5 closes5)
    refine ⟨i, use5, live5, node3, fs6, ?_, h6, ?_, ?_,
      .trans (fun x u hx _ => written.grow.mono x u hx) owned5, hi, hm, fun x hx => ?_,
      fun x hx hx0 y u hy ho => ?_, ?_⟩
    · simp only [Pintos.filesysRemove, dirRemove, hrun1, ok_bind, hlook, hrun2, hrun3, ne_eq,
        not_true, if_false, inodeRemove, FsState.inode_ok hqino3, pure_bind, hrun5, hrun6]
      rfl
    · rw [same6.files, hfiles5]
      exact hfiles3.trans hfiles2
    · rw [same6.freeMapFile, hmap5]
      exact written.grow.freeMapFile.trans (same2.freeMapFile.trans same1.freeMapFile)
    · exact written.grow.nodes x hx
    · -- neither the entry nor the release touches what another file owns
      have keep3 := written.grow.keepsOwned (h2.sound.core.tree _ h2.rootLive).1 hx hx0
      rw [same6.dev]
      refine (keep5 x hx0 y u (written.grow.mono y u hy) ho).trans ((keep3 y u hy ho).trans ?_)
      rw [same2.dev, same1.dev]
    · exact hinodes5.trans (hfiles5.trans (hfiles3.trans hfiles2))
        (h6.sound.heap.sameInodes_closes same6.files closes6)
  · right
    obtain ⟨fs2, hrun2, h2, same2, closes2⟩ := h1.closeRoot o1
    refine ⟨hnone, fs2, ?_, h2, same1.trans same2, (h.sound.heap.sameInodes_open hrun1).trans same1.files
      (h2.sound.heap.sameInodes_closes same2.files closes2)⟩
    simp only [Pintos.filesysRemove, dirRemove, hrun1, ok_bind, hlook, pure_bind, hrun2]
    rfl

/-- **`filesys_remove`** under `RemoveOk`. -/
theorem filesysRemove (h : FsOk use live node held ent cnt fs) (ok : RemoveOk fs name) :
    ∃ success use' live' node' ent' cnt' fs', filesysRemove fs name = .ok (success, fs') ∧
      FsOk use' live' node' held ent' cnt' fs' ∧ fs'.files = fs.files ∧
      fs'.freeMapFile = fs.freeMapFile ∧ KeepsUse use use' rootDirSector := by
  rcases h.filesysRemove_keeps ok with ⟨i, use', live', node', fs', hrun, removed⟩ |
    ⟨-, fs', hrun, h', same, -⟩
  · exact ⟨true, use', live', node', _, _, fs', hrun, removed.ok, removed.files, removed.mapFile,
      removed.owned⟩
  · exact ⟨false, use, live, node, ent, cnt, fs', hrun, h', same.files, same.freeMapFile, .refl _ _⟩

end FsOk

end

end Pintos
