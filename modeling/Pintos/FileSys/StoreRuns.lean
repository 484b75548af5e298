import Pintos.FileSys.Store

/-!
# Runs of the file system as a store

What each call of `filesys.c` and `file.c` does to the store that the file system represents, and what
follows for runs.

* `FsOk.simulates` — one call, by cases on what it is.
* **`store_of_run`** — from a formatted device on, under the conditions under which each call keeps the
  file system healthy, no call fails and the replies are those of a run of the store, which is empty
  first.
* **`denied_bytes`** — a file that an opener denies writes to keeps its bytes for as long as that opener
  has it, whatever else is called: its name may be removed and created again, and its sectors stay its.
-/

namespace Pintos

open Lib Lib.Block Lib.NamedStore

/-- The call succeeds, and is one of the store. -/
def Simulated (fs : FsState) (A : Store CString ℕ ℕ UInt8) (c : StoreCall) : Prop :=
  ∃ r fs' B, storeStep fs c = .ok (r, fs') ∧ Does FileName 0 A c r B ∧ Represents fs' B

section

variable {use : ℕ → Option Use} {live : ℕ → Prop} {node : ℕ → Sector} {ent : ℕ → DirEntry} {cnt : ℕ}
  {fs fs' : FsState} {A : Store CString ℕ ℕ UInt8} {name : CString} {s f : ℕ} {data : List UInt8}

namespace FsOk

/-! ## Names -/

/-- `filesys_create` under `CreateOk`: the name is new and gets a file of zeros, or nothing is created, for
want of a free sector or because the name is invalid or taken. -/
theorem filesysCreate_keeps {held : List ℕ} (h : FsOk use live node held ent cnt fs) (hz : ∀ c ∈ name, c ≠ 0)
    {size : ℤ} (ok : CreateOk fs size) (isDir : Bool) :
    (∃ t j e use' node' fs', Pintos.filesysCreate fs name size isDir = .ok (true, fs') ∧
      ((name ≠ [] ∧ name.length ≤ nameMax ∧ ∀ i < cnt, ¬ Matches ent name i) ∧
        0 < freeSectors fs.freeMap) ∧ Added use live node held ent cnt name size t j e use' node' fs fs' ∧
      (∀ i : ℕ, (i : ℤ) < size → fileByte fs'.dev.disk (node' t) i = 0) ∧ SameInodes fs fs') ∨
    ∃ use' node' fs', Pintos.filesysCreate fs name size isDir = .ok (false, fs') ∧
      ¬ ((name ≠ [] ∧ name.length ≤ nameMax ∧ ∀ i < cnt, ¬ Matches ent name i) ∧
        0 < freeSectors fs.freeMap) ∧ Refused use live node held ent cnt use' node' fs fs' := by
  by_cases hname : name = []
  · refine .inr ⟨use, node, fs, ?_, fun hok => hok.1.1 hname, h, rfl, rfl, .refl _ _, fun _ _ => rfl,
      fun _ _ _ _ _ _ => rfl, .of_eq rfl⟩
    rw [Pintos.filesysCreate, if_pos hname]
  obtain ⟨p, fs1, hrun1, h1, o1, same1⟩ := h.openInode h.rootLive
  have opened := h.sound.heap.sameInodes_open hrun1
  -- the root directory is open now, and nothing else is new
  have before : ∀ {use' node' fs'}, Refused use live node held ent cnt use' node' fs1 fs' →
      Refused use live node held ent cnt use' node' fs fs' := fun refused => { refused with
    files := refused.files.trans same1.files
    mapFile := refused.mapFile.trans same1.freeMapFile
    keep := same1.dev ▸ refused.keep
    inodes := opened.trans same1.files refused.inodes }
  rcases ok with hfull | ⟨h0, hmax, hfree, room⟩
  · obtain ⟨fs', hrun2, hrun3, refused⟩ := h1.createIn_full o1 (same1.freeMap ▸ hfull) name size isDir
    refine .inr ⟨use, node, fs', ?_, fun hok => hok.2.ne' hfull, before refused⟩
    simp only [Pintos.filesysCreate, if_neg hname, hrun1, ok_bind, hrun2, hrun3]
  have hpos : 0 < freeSectors fs.freeMap := by omega
  rw [← same1.freeMap] at hfree room
  rw [← same1.dev] at room
  by_cases hok : name ≠ [] ∧ name.length ≤ nameMax ∧ ∀ i < cnt, ¬ Matches ent name i
  · obtain ⟨t, j, e, fs2, use', node', fs', hrun2, hrun3, added, hzero, inodes⟩ :=
      h1.createIn_added_zeros o1 hz h0 hmax hfree room isDir hok.1 hok.2.1 hok.2.2
    refine .inl ⟨t, j, e, use', node', fs', ?_, ⟨hok, hpos⟩, { added with
      files := added.files.trans same1.files
      mapFile := added.mapFile.trans same1.freeMapFile
      keep := same1.dev ▸ added.keep
      cost := same1.freeMap ▸ added.cost }, hzero, opened.trans same1.files inodes⟩
    simp only [Pintos.filesysCreate, if_neg hname, hrun1, ok_bind, hrun2, hrun3]
  · obtain ⟨t, fs2, use', node', fs', hrun2, hrun3, refused⟩ :=
      h1.createIn_refused o1 hz h0 hmax hfree room isDir hok
    refine .inr ⟨use', node', fs', ?_, fun hok' => hok hok'.1, before refused⟩
    simp only [Pintos.filesysCreate, if_neg hname, hrun1, ok_bind, hrun2, hrun3]

theorem simulates_create (h : FsOk use live node [] ent cnt fs) (sh : Shows node ent cnt fs A)
    (hcount : A.free = freeSectors fs.freeMap) (hname : CallerName name) {size : ℕ} (ok : CreateOk fs size)
    (isDir : Bool) : Simulated fs A (.create name isDir size) := by
  obtain ⟨hz, hown⟩ := hname
  rcases h.filesysCreate_keeps hz ok isDir with
    ⟨t, j, e, use', node', fs', hrun, hcan, added, hzero, inodes⟩ | ⟨use', node', fs', hrun, hcan, refused⟩
  · have hfresh : ¬ A.Alive t := fun alive => added.notLive (sh.alive h alive).1
    have hnone := hcan.1.2.2
    refine ⟨.success true, fs', _, ?_, .created size _ ((sh.canCreate_iff hcount hown).mpr hcan) hfresh, use',
      _, node', _, _, added.ok, Shows.setFree ?_ _, rfl⟩
    · simp only [storeStep, hrun, ok_bind]
      rfl
    refine sh.setName added.slot (fun hj m hm => ?_) (fun i hi _ => hnone i hi) (fun _ => added.named.2)
      (fun s => ?_) hown (fun g => ?_) fun s hs => ?_
    · exact absurd hm.1 (by simp [added.wasFree hj])
    · rw [added.sector, Option.some.injEq]
      exact ⟨fun hts => ⟨added.named.1, hts⟩, fun hts => hts.2⟩
    · exact FsState.handleOf_congr added.mapFile (congrFun added.files g) (inodes g)
    · show Function.update A.contents t (List.replicate size 0) s = _
      by_cases est : s = t
      · -- the new file
        rw [est, Function.update_self, ← GrowArray.tabulate_const, bytesOf, added.length, Int.toNat_natCast]
        exact GrowArray.tabulate_congr fun i hi => (hzero i (by exact_mod_cast hi)).symm
      · have alive : A.Alive s := by
          rcases alive_setName hs with alive | hts
          · exact alive
          · exact absurd (Option.some.inj hts).symm est
        obtain ⟨hlive, h0, h1⟩ := sh.alive h alive
        rw [Function.update_of_ne est, sh.contents s alive, added.nodes s hlive h1]
        exact ((h.sound.core.tree s hlive).2.bytesOf_eq (added.keep s hlive h1 h0)).symm
  · refine ⟨.success false, fs', _, ?_, .refused _ (mt (sh.canCreate_iff hcount hown).mp hcan), use', live,
      node', ent, cnt, refused.ok, Shows.setFree (sh.keep h refused.mapFile refused.files refused.inodes
        fun x hx h0 _ => ?_) _, rfl⟩
    · simp only [storeStep, hrun, ok_bind]
      rfl
    · rw [refused.nodes x hx]
      exact (h.sound.core.tree x hx).2.bytesOf_eq (refused.keep x h0)

theorem simulates_open (h : FsOk use live node [] ent cnt fs) (sh : Shows node ent cnt fs A)
    (hcount : A.free = freeSectors fs.freeMap) (hname : CallerName name) : Simulated fs A (.open name) := by
  -- the name is found and a new file refers to its inode, or it is not
  rcases h.filesysOpen_keeps name with
    ⟨i, hi, hm, -, f, q, fs', hrun, h', frame, hnew, hmap, hf, o, hdev, hfree, -, inodes⟩ |
    ⟨hnone, fs', hrun, h', same, inodes⟩
  · have hnamed : A.named name = some (ent i).sector := (sh.named name _).mpr ⟨hname.2, i, hi, hm, rfl⟩
    have alive : A.Alive (ent i).sector := .inl ⟨name, hnamed⟩
    have hclosed : A.handle f = none := by
      rw [sh.handles, FsState.handleOf, if_neg hmap, hnew]
      rfl
    refine ⟨.opened (some f), fs', _, ?_, .opened hnamed hclosed, use, live, node, ent, cnt, h',
      sh.setHandle ?_ (fun g hg => ?_) (fun x hx => ?_) fun s hs => ?_, hcount.trans (hfree ▸ rfl)⟩
    · simp only [storeStep, hrun, ok_bind]
      rfl
    · obtain ⟨ino, hino, hsec⟩ := o.isOpen
      rw [FsState.handleOf_ok (frame.mapFile ▸ hmap) hf hino, hsec]
    · exact FsState.handleOf_congr frame.mapFile (frame.files g hg) (inodes g)
    · rw [← Option.some.inj hx]
      exact (sh.alive h alive).2.2
    · rw [hdev]
      refine sh.contents s ?_
      rcases alive_setHandle hs with before | ⟨x, hx, rfl⟩
      · exact before
      · rw [← Option.some.inj hx]
        exact alive
  · refine ⟨.opened none, fs', A, ?_, .missing (sh.named_none hnone), use, live, node, ent, cnt, h',
      sh.keep h same.freeMapFile same.files inodes fun x _ _ _ => ?_, hcount.trans (same.freeMap ▸ rfl)⟩
    · simp only [storeStep, hrun, ok_bind]
      rfl
    · rw [same.dev]

theorem simulates_remove (h : FsOk use live node [] ent cnt fs) (sh : Shows node ent cnt fs A)
    (hcount : A.free = freeSectors fs.freeMap) (hname : CallerName name) (ok : RemoveOk fs name) :
    Simulated fs A (.remove name) := by
  rcases h.filesysRemove_keeps ok with ⟨i, use', live', node', fs', hrun, removed⟩ |
    ⟨hnone, fs', hrun, h', same, inodes⟩
  · have hnamed : A.named name = some (ent i).sector :=
      (sh.named name _).mpr ⟨hname.2, i, removed.slot, removed.named, rfl⟩
    refine ⟨.success true, fs', _, ?_, .removed _ hnamed, use', live', node', _, _, removed.ok,
      Shows.setFree (sh.setName removed.slot.le (fun _ m hm => hm.2.symm.trans removed.named.2)
        (fun k hk hki hm => ?_) (fun hu => ?_) (fun s => ?_) hname.2 (fun g => ?_) fun s hs => ?_) _, rfl⟩
    · simp only [storeStep, hrun, ok_bind]
      rfl
    · exact hki (sh.distinct name hname.2 k hk i removed.slot hm removed.named)
    · simp [(ent i).inUse_clear] at hu
    · simp [(ent i).inUse_clear]
    · exact FsState.handleOf_congr removed.mapFile (congrFun removed.files g) (removed.inodes g)
    · have alive : A.Alive s := by
        rcases alive_setName hs with alive | hts
        · exact alive
        · cases hts
      obtain ⟨hlive, h0, h1⟩ := sh.alive h alive
      rw [sh.contents s alive, removed.nodes s h1]
      exact ((h.sound.core.tree s hlive).2.bytesOf_eq (removed.keep s h1 h0)).symm
  · refine ⟨.success false, fs', A, ?_, .unknown (sh.named_none hnone), use, live, node, ent, cnt, h',
      sh.keep h same.freeMapFile same.files inodes fun x _ _ _ => ?_, hcount.trans (same.freeMap ▸ rfl)⟩
    · simp only [storeStep, hrun, ok_bind]
      rfl
    · rw [same.dev]

/-! ## Handles -/

theorem simulates_read (h : FsOk use live node [] ent cnt fs) (sh : Shows node ent cnt fs A)
    (hcount : A.free = freeSectors fs.freeMap) (hc : CallerFile fs f) (size : ℕ) :
      Simulated fs A (.read f size) := by
  obtain ⟨file, ino, hf, hino, hlive, o, hdata, hx, hcontents⟩ := sh.handle h hc
  have h0 := (h.sound.core.tree _ hlive).2.len_nonneg
  -- the bytes in range are those of the array
  have hn : transferred (inodeLength (node ino.sector)) size file.pos =
      min size ((inodeLength (node ino.sector)).toNat - file.pos) := by
    unfold transferred
    omega
  have hbytes : A.bytesAt ⟨ino.sector, file.pos, file.denyWrite⟩ size =
      (List.range (transferred (inodeLength (node ino.sector)) size file.pos)).map fun k =>
        fileByte fs.dev.disk (node ino.sector) (file.pos + k) := by
    rw [hn, ← GrowArray.read_tabulate]
    exact congrArg (fun l => GrowArray.read l size file.pos) hcontents
  have hlen : (A.bytesAt ⟨ino.sector, file.pos, file.denyWrite⟩ size).length =
      transferred (inodeLength (node ino.sector)) size file.pos := by
    rw [hbytes, List.length_map, List.length_range]
  refine ⟨.data _, _, _, ?_, .read size hx, use, live, node, ent, cnt, h.setPos hf hc.1 _,
    sh.setPos hc.1 hf hino _, hcount⟩
  rw [hlen, hbytes]
  simp only [storeStep, h.fileRead hf hlive o, Int.toNat_natCast, ok_bind]
  rfl

theorem simulates_write (h : FsOk use live node [] ent cnt fs) (sh : Shows node ent cnt fs A)
    (hcount : A.free = freeSectors fs.freeMap) (hc : CallerFile fs f) (ok : WriteOk fs f data.length)
    (hmax : ∀ file ∈ fs.files f, file.pos + data.length ≤ 8516608) : Simulated fs A (.write f data) := by
  obtain ⟨file, ino, hf, hino, hlive, o, hdata, hx, hcontents⟩ := sh.handle h hc
  obtain ⟨-, hsec0, hsec1⟩ := sh.alive h (.inr ⟨f, _, hx, rfl⟩)
  have hden := sh.denied_iff h o.listed hino hsec0
  by_cases hdeny : ino.denyWriteCnt = 0
  · obtain ⟨-, hgrow, hfree⟩ := ok file hf ino hino hdeny
    rw [hdata] at hgrow hfree
    obtain ⟨huse, tree⟩ := h.sound.core.tree _ hlive
    have h0 := tree.len_nonneg
    have hle := hmax file hf
    obtain ⟨use', node', fs1, moved, hmoved, hrun, g, hlen, hsync, hbytes⟩ :=
      inodeWriteAt_spec h.sound.core h.sound.ready hlive hsec0 o (fun a ha => by
        rw [hino, Option.some.injEq] at ha
        exact ha ▸ hdeny) (fun k => data.getD k 0) hgrow hfree
    have hgrown : grownLength (inodeLength (node ino.sector)) data.length file.pos =
        max (inodeLength (node ino.sector)) (file.pos + data.length) := by
      rw [grownLength, wrap32_of_range (by omega) (by omega)]
    have hall : moved = data.length := by
      rw [hmoved, hgrown, transferred]
      omega
    rw [hlen, hgrown, hall] at hbytes
    obtain ⟨h1, hfiles, hmap⟩ := h.grow o hlive hsec1 g hsync
    have hf1 : fs1.files f = some file := hfiles ▸ hf
    have hne1 : fs1.freeMapFile ≠ some f := hmap ▸ hc.1
    -- the file is written, the others are left alone
    have sh1 : Shows node' ent cnt fs1 (A.setContents ino.sector
        (GrowArray.write 0 (A.contents ino.sector) data file.pos)) := by
      refine sh.setContents h hmap hfiles g.sameInodes ?_ fun x hxl hxs hx0 _ => ?_
      · rw [hcontents]
        refine (tabulate_write h0 hbytes).symm.trans ?_
        rw [← hgrown, ← hlen]
        rfl
      · rw [g.nodes x hxs]
        exact (h.sound.core.tree x hxl).2.bytesOf_eq (g.keepsOwned huse hxs hx0)
    refine ⟨.count data.length, _, _, ?_, .wrote data _ hx (fun hd => hden.mp hd hdeny), use', live, node',
      ent, cnt, h1.setPos hf1 hne1 (file.pos + data.length),
      Shows.setFree (sh1.setPos hne1 hf1 (g.inode hino) _) _, rfl⟩
    simp only [storeStep, Pintos.fileWrite, FsState.file_ok hf, ok_bind, hrun, hall]
    rfl
  · refine ⟨.count 0, fs, A, ?_, .denied data hx (hden.mpr hdeny), use, live, node, ent, cnt, h, sh, hcount⟩
    have hsame : fs.setFile f { file with pos := file.pos + (0 : ℤ).toNat } = fs := by
      have hfiles : Function.update fs.files f (some file) = fs.files := Function.update_eq_self_iff.mpr hf.symm
      show { fs with files := Function.update fs.files f (some file) } = fs
      rw [hfiles]
    have hwrite : Pintos.fileWrite fs f (fun k => data.getD k 0) data.length = .ok (0, fs) := by
      simp only [Pintos.fileWrite, FsState.file_ok hf, ok_bind, inodeWriteAt, inodeWriteAtWith,
        FsState.inode_ok hino, ne_eq, hdeny, not_false_eq_true, if_true]
      exact congrArg (fun fs => Except.ok (0, fs)) hsame
    simp only [storeStep, hwrite, ok_bind]
    rfl

theorem simulates_close (h : FsOk use live node [] ent cnt fs) (sh : Shows node ent cnt fs A)
    (hc : CallerFile fs f) (ok : FileCloseOk fs f) : Simulated fs A (.close f) := by
  obtain ⟨file, ino, hf, hino, -, -, -, hx, -⟩ := sh.handle h hc
  obtain ⟨use', live', fs', hrun, h', frame, hnone, -, inodes, keep⟩ := h.fileClose_keeps hf hc.1 ok
  refine ⟨.done, fs', _, ?_, .close _ hx, use', live', node, ent, cnt, h',
    Shows.setFree (sh.setHandle ?_ (fun g hg => ?_) (fun x hx => ?_) fun s hs => ?_) _, rfl⟩
  · simp only [storeStep, hrun, ok_bind]
    rfl
  · rw [FsState.handleOf, if_neg (frame.mapFile ▸ hc.1), hnone]
    rfl
  · exact FsState.handleOf_congr frame.mapFile (frame.files g hg) (inodes g hg)
  · cases hx
  · have alive : A.Alive s := by
      rcases alive_setHandle hs with before | ⟨x, hx, -⟩
      · exact before
      · cases hx
    obtain ⟨hlive, h0, -⟩ := sh.alive h alive
    rw [sh.contents s alive]
    exact ((h.sound.core.tree s hlive).2.bytesOf_eq (keep s h0)).symm

/-- **One call** under its condition is one call of the store. -/
theorem simulates (h : FsOk use live node [] ent cnt fs) (sh : Shows node ent cnt fs A)
    (hcount : A.free = freeSectors fs.freeMap) {c : StoreCall} (ok : StoreOk fs c) : Simulated fs A c := by
  cases c with
  | create name isDir size => exact h.simulates_create sh hcount ok.1 ok.2 isDir
  | «open» name => exact h.simulates_open sh hcount ok
  | length f =>
      obtain ⟨file, ino, hf, hino, hlive, o, hdata, hx, hcontents⟩ := sh.handle h ok
      refine ⟨.count _, fs, A, ?_, .length hx, use, live, node, ent, cnt, h, sh, hcount⟩
      simp only [storeStep, h.fileLength hf o, ok_bind, hcontents, length_bytesOf]
      rfl
  | tell f =>
      obtain ⟨file, ino, hf, -, -, -, -, hx, -⟩ := sh.handle h ok
      refine ⟨.count _, fs, A, ?_, .tell hx, use, live, node, ent, cnt, h, sh, hcount⟩
      simp only [storeStep, fileTell, FsState.file_ok hf, ok_bind]
      rfl
  | read f size => exact h.simulates_read sh hcount ok size
  | write f data => exact h.simulates_write sh hcount ok.1 ok.2.1 ok.2.2
  | seek f pos =>
      obtain ⟨file, ino, hf, hino, -, -, -, hx, -⟩ := sh.handle h ok
      obtain ⟨hrun, h'⟩ := h.fileSeek hf ok.1 (Int.natCast_nonneg pos)
      rw [Int.toNat_natCast] at hrun h'
      refine ⟨.done, _, _, ?_, .seek pos hx, use, live, node, ent, cnt, h', sh.setPos ok.1 hf hino pos, hcount⟩
      simp only [storeStep, hrun, ok_bind]
      rfl
  | deny f =>
      obtain ⟨file, ino, hf, hino, -, -, -, hx, -⟩ := sh.handle h ok
      have hroot : ∀ a, fs.inodes file.inode = some a → a.sector ≠ rootDirSector := by
        intro a ha
        rw [hino, Option.some.injEq] at ha
        exact ha ▸ sh.ordinary f _ hx
      obtain ⟨fs', hrun, h', -⟩ := h.fileDenyWrite hf ok.1 hroot
      have marked : Marked f file true fs fs' := .of_deny hf hrun
      refine ⟨.done, fs', _, ?_, .deny hx, use, live, node, ent, cnt, h', sh.setMark ok.1 hf hino marked,
        hcount.trans (marked.freeMap ▸ rfl)⟩
      simp only [storeStep, hrun, ok_bind]
      rfl
  | allow f =>
      obtain ⟨file, ino, hf, hino, -, -, -, hx, -⟩ := sh.handle h ok
      obtain ⟨fs', hrun, h', -⟩ := h.fileAllowWrite hf ok.1
      have marked : Marked f file false fs fs' := .of_allow hf hrun
      refine ⟨.done, fs', _, ?_, .allow hx, use, live, node, ent, cnt, h', sh.setMark ok.1 hf hino marked,
        hcount.trans (marked.freeMap ▸ rfl)⟩
      simp only [storeStep, hrun, ok_bind]
      rfl
  | remove name => exact h.simulates_remove sh hcount ok.1 ok.2
  | close f => exact h.simulates_close sh ok.1 ok.2

end FsOk

/-! ## Runs -/

/-- A file system that has just been formatted shows an empty store: its entries are the root directory's
own, and no caller has a file. -/
theorem represents_of_format {dev : Device} (format : FormatOk dev) {junk : ℕ → Bool}
    (hinit : filesysInit dev junk true = .ok fs) :
      Represents fs (Store.empty (fun _ => []) (freeSectors fs.freeMap)) := by
  obtain ⟨fs0, use, node, ent, cnt, fm, hrun, h, hmap, hfiles⟩ := filesysInit_empty format junk
  rw [hinit, Except.ok.injEq] at hrun
  subst hrun
  have own : ∀ name, ¬ OwnName name → ∀ i < cnt, ¬ Matches ent name i := by
    intro name hown i hi hm
    obtain ⟨hlive, h0⟩ := h.root.entries i hi hm.1
    have hown' := h.root.dots i hi hm.1 (hlive.resolve_left h0)
    rw [hm.2] at hown'
    exact hown hown'
  refine ⟨use, FormatLive, node, ent, cnt, h, ⟨fun name s => ⟨fun hs => (by cases hs), ?_⟩,
    fun name hown i hi j _ hm _ => absurd hm (own name hown i hi), fun g => ?_,
    fun g x hx => (by cases hx), ?_⟩, rfl⟩
  · rintro ⟨hown, i, hi, hm, -⟩
    exact absurd hm (own name hown i hi)
  · show none = fs.handleOf g
    rw [FsState.handleOf, hmap]
    by_cases e : g = fm
    · rw [e, if_pos rfl]
    · rw [if_neg (by simpa using Ne.symm e), hfiles g e]
      rfl
  · rintro s (⟨name, hn⟩ | ⟨g, x, hx, -⟩)
    · cases hn
    · cases hx

/-- Runs of the file system are runs of the store it represents. -/
theorem Represents.runs (h : Represents fs A) {calls : List StoreCall}
    (guarded : Guarded storeStep StoreOk fs calls) :
    ∃ replies fs' B, runOps storeStep fs calls = .ok (replies, fs') ∧ Runs FileName 0 A calls replies B ∧
      Represents fs' B :=
  runs_of_simulation (fun _ _ _ ⟨_, _, _, _, _, h, sh, hcount⟩ ok => h.simulates sh hcount ok) calls fs A h guarded

/-- The bytes a caller's file leads to. -/
def fileContents (fs : FsState) (f : ℕ) : Option (List UInt8) :=
  (fs.files f).map fun file => contents fs file.inode

/-- They are those of the store. -/
theorem Represents.fileContents (h : Represents fs A) {x : Handle ℕ} (hx : A.handle f = some x) :
    fileContents fs f = some (A.contents x.file) := by
  obtain ⟨use, live, node, ent, cnt, h, sh, -⟩ := h
  have hx' := hx
  rw [sh.handles] at hx'
  obtain ⟨hne, file, -, hf, -, -⟩ := FsState.handleOf_some hx'
  have hc : CallerFile fs f := ⟨hne, by simp [hf]⟩
  obtain ⟨file, ino, hf, hino, -, -, hdata, hx'', hcontents⟩ := sh.handle h hc
  rw [hx, Option.some.injEq] at hx''
  simp only [Pintos.fileContents, hf, Option.map_some, Pintos.contents, hino, hx'', hcontents, hdata]
  rfl

/-- **Denying writes works.**  In a run from a formatted device on, a file that an opener denies writes to
keeps its bytes until that opener closes it or allows writes. -/
theorem denied_bytes {dev : Device} (format : FormatOk dev) {junk : ℕ → Bool} {fs0 : FsState}
    (hinit : filesysInit dev junk true = .ok fs0) {before after : List StoreCall} {replies : List StoreReply}
    (guarded : Guarded storeStep StoreOk fs0 before) (hrun : runOps storeStep fs0 before = .ok (replies, fs))
    {f : ℕ} {file : File} (hmap : fs.freeMapFile ≠ some f) (hf : fs.files f = some file)
    (hdeny : file.denyWrite = true) (guarded' : Guarded storeStep StoreOk fs after)
    (hkept : ∀ c ∈ after, c ≠ .close f ∧ c ≠ .allow f) :
    ∃ replies' fs', runOps storeStep fs after = .ok (replies', fs') ∧
      fileContents fs' f = fileContents fs f := by
  obtain ⟨_, _, A, hrun', -, h⟩ := (represents_of_format format hinit).runs guarded
  rw [hrun, Except.ok.injEq, Prod.mk.injEq] at hrun'
  obtain ⟨rfl, rfl⟩ := hrun'
  obtain ⟨x, hx, hden⟩ : ∃ x, A.handle f = some x ∧ x.denies = true := by
    obtain ⟨_, _, _, _, _, hok, sh, -⟩ := h
    obtain ⟨ino, hino, -⟩ := hok.file_inode hf
    exact ⟨_, sh.handle_of_file hmap hf hino, hdeny⟩
  obtain ⟨replies', fs', B, hafter, run, h'⟩ := h.runs guarded'
  obtain ⟨hsame, y, hy, hfile, -⟩ := run.denied_kept hx hden hkept
  refine ⟨replies', fs', hafter, ?_⟩
  rw [h'.fileContents hy, h.fileContents hx, hfile, hsame]

/-- The other opener's write is denied, and the file outlives its name. -/
theorem denied_sharedCalls : ∃ fs0 fs replies replies' fs',
    filesysInit smallDevice (fun _ => false) true = .ok fs0 ∧
      runOps storeStep fs0 [.create [97] false 600, .open [97], .open [97], .deny 9] = .ok (replies, fs) ∧
      runOps storeStep fs [.write 11 [7], .remove [97], .close 11] = .ok (replies', fs') ∧
      fileContents fs' 9 = fileContents fs 9 := by
  have hrun : okWith (filesysInit smallDevice (fun _ => false) true) (fun fs0 =>
      decide (Guarded storeStep StoreOk fs0 [.create [97] false 600, .open [97], .open [97], .deny 9]) &&
        okWith (runOps storeStep fs0 [.create [97] false 600, .open [97], .open [97], .deny 9]) fun a =>
          decide (a.2.freeMapFile ≠ some 9) && (a.2.files 9).any (fun file => file.denyWrite) &&
            decide (Guarded storeStep StoreOk a.2
              [.write 11 [7], .remove [97], .close 11])) = true := by
    decide +kernel
  obtain ⟨fs0, hinit, hrun⟩ := okWith_iff.mp hrun
  rw [Bool.and_eq_true, decide_eq_true_eq] at hrun
  obtain ⟨guarded, hrun⟩ := hrun
  obtain ⟨⟨replies, fs⟩, hbefore, hrun⟩ := okWith_iff.mp hrun
  rw [Bool.and_eq_true, Bool.and_eq_true, decide_eq_true_eq, decide_eq_true_eq] at hrun
  obtain ⟨⟨hmap, hmark⟩, guarded'⟩ := hrun
  obtain ⟨file, hf, hdeny⟩ := (Option.any_eq_true _ _).mp hmark
  obtain ⟨replies', fs', hafter, hsame⟩ :=
    denied_bytes (show FormatOk smallDevice by decide) hinit guarded hbefore hmap hf hdeny guarded' (by decide)
  exact ⟨fs0, fs, replies, replies', fs', hinit, hbefore, hafter, hsame⟩

end

end Pintos
