import Pintos.Strings.Strtok

/-!
# All the tokens of a string

`strtok_r` called with a string and then again and again with a null pointer.  A call knows only
the pointer that the call before has saved, and that is enough: what lies behind it is a text of
its own, whose runs are the runs of the string that have not been returned.

* **`strtokR_rest`** — what a call leaves to the next one.
* **`strtokR_runs`** — the calls return the runs of the string in order, and then null.
-/

namespace Pintos.Strings

open Lib

/-- Calls of `strtok_r`, the first one with `s` and the others with a null pointer: the tokens. -/
def strtokCalls (fuel : ℕ) (delimiters : List UInt8) : ℕ → ℕ → ℕ → StringCode (List ℕ)
  | 0, _, _ => pure []
  | n + 1, s, savePtr => do
      let (token, savePtr) ← strtokR fuel delimiters s savePtr
      let tokens ← strtokCalls fuel delimiters n 0 savePtr
      return token :: tokens

section

variable {delimiters text : List UInt8} {fuel s : ℕ}

/-- What `n` calls on the text at `s` return when its runs are `runs`, and what they leave. -/
structure Tokens (mem mem' : ℕ → UInt8) (s : ℕ) (text : List UInt8) (runs : List (ℕ × List UInt8))
    (n : ℕ) (tokens : List ℕ) : Prop where
  tokens : tokens = (runs.take n).map (s + ·.1) ++ List.replicate (n - runs.length) 0
  words : ∀ r ∈ runs.take n, IsString mem' (s + r.1) r.2
  frame : ∀ a, a < s ∨ s + text.length ≤ a → mem' a = mem a

/-- There is nothing more to return. -/
theorem strtokCalls_end (h : ∀ c ∈ text, c ∈ delimiters) (hs : s ≠ 0) (hf : text.length < fuel)
    {mem : ℕ → UInt8} (hmem : IsString mem s text) (n s0 save0 : ℕ)
    (harg : (if s0 = 0 then save0 else s0) = s) :
    strtokCalls fuel delimiters n s0 save0 mem = .ok (List.replicate n 0) mem := by
  induction n generalizing text s s0 save0 with
  | zero => rfl
  | succ n ih =>
      have hend : IsString mem (s + text.length) [] := IsString.nil_iff.mpr hmem.terminator
      rw [strtokCalls, bind_of_ok (strtokR_end hmem h hs hf harg)]
      simp only
      rw [bind_of_ok (ih (by simp) (by omega) (by simpa using lt_of_le_of_lt (Nat.zero_le _) hf) hend
        0 _ rfl)]
      rfl

/-- **What a call leaves to the next one.**  It returns `run`; the next call starts `j` bytes
behind the start of `run` with the text `after`, whose runs are those of `rest`. -/
theorem strtokR_rest {skipped run rest : List UInt8} (hs : s ≠ 0) (hskip : ∀ x ∈ skipped, x ∈ delimiters)
    (hne : run ≠ []) (hrun : ∀ x ∈ run, x ∉ delimiters) (hrest : ∀ x ∈ rest.head?, x ∈ delimiters)
    (hf : (skipped ++ run ++ rest).length < fuel) :
    ∃ (after : List UInt8) (j : ℕ),
      skipped.length + j + after.length = (skipped ++ run ++ rest).length ∧
      (run.length = j ∧ after = [] ∨ run.length < j) ∧
      (∀ k w, IsRun delimiters.contains rest k w ↔
        ∃ l, run.length + k = j + l ∧ IsRun delimiters.contains after l w) ∧
      ∀ (mem : ℕ → UInt8) (s0 save0 : ℕ), (if s0 = 0 then save0 else s0) = s →
        IsString mem s (skipped ++ run ++ rest) → ∃ mem1,
          strtokR fuel delimiters s0 save0 mem =
            .ok (s + skipped.length, s + (skipped.length + j)) mem1 ∧
          IsString mem1 (s + skipped.length) run ∧ IsString mem1 (s + (skipped.length + j)) after ∧
          ∀ a, a < s ∨ s + (skipped ++ run ++ rest).length ≤ a → mem1 a = mem a := by
  cases rest with
  | nil =>
      refine ⟨[], run.length, by simp, .inl ⟨rfl, rfl⟩, fun k w => ?_, fun mem s0 save0 harg h =>
        ⟨mem, ?_, ?_, ?_, fun _ _ => rfl⟩⟩
      · simp [IsRun.not_of_all]
      · rw [List.append_nil] at h hf
        rw [strtokR_last h hs hskip hne hrun hf harg, Nat.add_assoc]
      · rw [List.append_nil] at h
        exact h.suffix
      · rw [IsString.nil_iff, ← Nat.add_assoc]
        have hzero := h.terminator
        rwa [List.append_nil, List.length_append, ← Nat.add_assoc] at hzero
  | cons d after =>
      have hd := hrest d rfl
      refine ⟨after, run.length + 1, ?_, .inr (Nat.lt_succ_self _), fun k w => ?_,
        fun mem s0 save0 harg h =>
          ⟨Function.update mem (s + skipped.length + run.length) 0, ?_, ?_, ?_, fun a ha => ?_⟩⟩
      · simp only [List.length_append, List.length_cons]
        omega
      · rw [IsRun.cons_iff (by simpa using hd)]
        constructor
        · rintro ⟨l, rfl, hl⟩
          exact ⟨l, by omega, hl⟩
        · rintro ⟨l, e, hl⟩
          exact ⟨l, by omega, hl⟩
      · rw [strtokR_next h hs hskip hne hrun hd hf harg, ← Nat.add_assoc, ← Nat.add_assoc]
      · rw [List.append_assoc] at h
        exact h.suffix.cut
      · have hend := (IsString.cons_iff.mp h.suffix).2.2
        rw [List.length_append, ← Nat.add_assoc] at hend
        rw [← Nat.add_assoc, ← Nat.add_assoc]
        exact hend.congr fun i _ => Function.update_of_ne (by omega) _ _
      · refine Function.update_of_ne ?_ _ _
        simp only [List.length_append, List.length_cons] at ha
        omega

/-- A token is returned, and the other calls find the runs behind it. -/
theorem Tokens.next {mem mem1 mem' : ℕ → UInt8} {rest run : List UInt8} {i j n : ℕ}
    {runs : List (ℕ × List UInt8)} {tokens : List ℕ} (hword : IsString mem1 (s + i) run)
    (hframe : ∀ a, a < s ∨ s + text.length ≤ a → mem1 a = mem a) (hi : i + run.length ≤ j)
    (hj : j + rest.length = text.length) (hgap : i + run.length = j → rest = [])
    (h : Tokens mem1 mem' (s + j) rest runs n tokens) :
    Tokens mem mem' s text ((i, run) :: runs.map fun r => (j + r.1, r.2)) (n + 1) ((s + i) :: tokens) := by
  refine ⟨?_, ?_, fun a ha => ?_⟩
  · rw [h.tokens, List.take_succ_cons, List.map_cons, List.length_cons, List.length_map,
      Nat.succ_sub_succ, List.cons_append, List.map_take, List.map_take, List.map_map]
    simp only [Function.comp_def, Nat.add_assoc]
  · intro r hr
    rw [List.take_succ_cons, List.mem_cons, ← List.map_take, List.mem_map] at hr
    rcases hr with rfl | ⟨r, hr, rfl⟩
    · -- the calls that follow do not write to the token that was returned
      refine hword.congr fun k hk => h.frame _ ?_
      by_cases hlt : i + run.length < j
      · exact .inl (by omega)
      · obtain rfl := hgap (by omega)
        simp only [List.length_nil]
        omega
    · have := h.words r hr
      rwa [Nat.add_assoc] at this
  · rw [h.frame a (by omega), hframe a ha]

/-- **The calls return the runs of the string**: whatever memory holds outside the string, the
same `runs` of it come back in order, each with a zero byte behind it, and then null for ever;
and nothing outside the string is changed. -/
theorem strtokR_runs (delimiters text : List UInt8) (s fuel : ℕ) (hs : s ≠ 0) (hf : text.length < fuel) :
    ∃ runs : List (ℕ × List UInt8), (∀ i w, (i, w) ∈ runs ↔ IsRun delimiters.contains text i w) ∧
      runs.Pairwise (fun r r' => r.1 < r'.1) ∧
      ∀ (mem : ℕ → UInt8) (n savePtr : ℕ), IsString mem s text → ∃ tokens mem',
        strtokCalls fuel delimiters n s savePtr mem = .ok tokens mem' ∧
          Tokens mem mem' s text runs n tokens := by
  suffices later : ∀ s0 ≠ 0, ∃ runs : List (ℕ × List UInt8),
      (∀ i w, (i, w) ∈ runs ↔ IsRun delimiters.contains text i w) ∧
      runs.Pairwise (fun r r' => r.1 < r'.1) ∧
      ∀ (mem : ℕ → UInt8) (n s save0 : ℕ), (if s = 0 then save0 else s) = s0 → IsString mem s0 text →
        ∃ tokens mem', strtokCalls fuel delimiters n s save0 mem = .ok tokens mem' ∧
          Tokens mem mem' s0 text runs n tokens by
    obtain ⟨runs, hiff, hsorted, hcalls⟩ := later s hs
    exact ⟨runs, hiff, hsorted, fun mem n savePtr h => hcalls mem n s savePtr (if_neg hs) h⟩
  clear hs s
  induction hm : text.length using Nat.strong_induction_on generalizing text with
  | _ m ih =>
      subst hm
      intro s hs
      rcases split_text delimiters text with hall | ⟨skipped, run, rest, rfl, hskip, hne, hrun, hrest⟩
      · refine ⟨[], fun i w => ?_, List.Pairwise.nil, fun mem n s0 save0 harg h =>
          ⟨_, _, strtokCalls_end hall hs hf h n s0 save0 harg, by simp, by simp, fun _ _ => rfl⟩⟩
        exact iff_of_false List.not_mem_nil (IsRun.not_of_all (by simpa using hall))
      have hskip' : ∀ c ∈ skipped, delimiters.contains c = true := by simpa using hskip
      have hrun' : ∀ c ∈ run, delimiters.contains c = false := by simpa using hrun
      have hrest' : ∀ c ∈ rest.head?, delimiters.contains c = true := by simpa using hrest
      have hpos := List.length_pos_of_ne_nil hne
      -- the calls after the one that returns `run` start at `skipped.length + j`, with `after`
      obtain ⟨after, j, hj, hgap, hshift, hcall⟩ := strtokR_rest hs hskip hne hrun hrest hf
      have hlen : after.length < (skipped ++ run ++ rest).length := by omega
      obtain ⟨runs, hiff, hsorted, hcalls⟩ := ih _ hlen after (by omega) rfl (s + (skipped.length + j))
        (by omega)
      refine ⟨(skipped.length, run) :: runs.map fun r => (skipped.length + j + r.1, r.2), ?_, ?_, ?_⟩
      · intro i w
        rw [List.append_assoc, IsRun.append_iff hskip']
        simp only [IsRun.run_iff hrun' hne hrest', hshift, List.mem_cons, Prod.mk.injEq, List.mem_map,
          Prod.exists, hiff]
        constructor
        · rintro (⟨rfl, rfl⟩ | ⟨l, w, hl, rfl, rfl⟩)
          · exact ⟨0, rfl, .inl ⟨rfl, rfl⟩⟩
          · refine ⟨j + l, by omega, .inr ⟨j + l - run.length, by omega, l, by omega, hl⟩⟩
        · rintro ⟨_, rfl, ⟨rfl, rfl⟩ | ⟨k, rfl, l, e, hl⟩⟩
          · exact .inl ⟨rfl, rfl⟩
          · exact .inr ⟨l, w, hl, by omega, rfl⟩
      · rw [List.pairwise_cons]
        refine ⟨fun r hr => ?_, List.pairwise_map.mpr (hsorted.imp fun h => by simpa using h)⟩
        obtain ⟨r, -, rfl⟩ := List.mem_map.mp hr
        show skipped.length < skipped.length + j + r.1
        omega
      · intro mem n s0 save0 harg h
        cases n with
        | zero => exact ⟨[], mem, rfl, by simp, by simp, fun _ _ => rfl⟩
        | succ n =>
            obtain ⟨mem1, hrun1, hword, hafter, hframe⟩ := hcall mem s0 save0 harg h
            obtain ⟨tokens, mem', htokens, hspec⟩ := hcalls mem1 n 0 _ rfl hafter
            refine ⟨_, mem', ?_, Tokens.next hword hframe (by omega) hj (fun e => ?_) hspec⟩
            · rw [strtokCalls, bind_of_ok hrun1]
              simp only
              rw [bind_of_ok htokens]
              rfl
            · rcases hgap with ⟨-, hnil⟩ | hlt
              · exact hnil
              · omega

/-- The calls on `" a b"`. -/
theorem strtokR_runs_two : ∃ runs : List (ℕ × List UInt8), (1, [0x61]) ∈ runs ∧ (3, [0x62]) ∈ runs ∧
    ∀ (mem : ℕ → UInt8) (n savePtr : ℕ), IsString mem 16 [0x20, 0x61, 0x20, 0x62] → ∃ tokens mem',
      strtokCalls 5 [0x20] n 16 savePtr mem = .ok tokens mem' ∧
        Tokens mem mem' 16 [0x20, 0x61, 0x20, 0x62] runs n tokens := by
  obtain ⟨runs, hiff, -, hcalls⟩ := strtokR_runs [0x20] [0x20, 0x61, 0x20, 0x62] 16 5 (by decide) (by decide)
  refine ⟨runs, (hiff _ _).mpr ⟨by decide, by decide, ?_⟩, (hiff _ _).mpr ⟨by decide, by decide, ?_⟩, hcalls⟩
  · rintro j hj c hc
    obtain rfl : j = 0 := by omega
    obtain rfl : 0x20 = c := by simpa using hc
    decide
  · rintro j hj c hc
    obtain rfl : j = 2 := by omega
    obtain rfl : 0x20 = c := by simpa using hc
    decide

end

end Pintos.Strings
