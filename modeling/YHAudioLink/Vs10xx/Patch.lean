import Mathlib.Data.Nat.Bitwise
import YHAudioLink.Vs10xx.Driver

/-!
# The plugin loader

`VS_Load_Patch` is an interpreter: the words of a compressed plugin are records, each with a
register, a count, and then as many values as the count says, or one value to be written as often.
What it does is a question about the words it reads and the registers it writes, in their order, so
it is taken here as a program over just these two operations (`loadPatch`); with each write made by
`VS_WR_Cmd` it is the function of the driver (`vsLoadPatch_eq`).

The length is looked at between records only, and the index has 16 bits. Two laws say what comes of
it:

* `loadPatch_decodes`: on words that are complete records every word is read once, none behind the
  last, and the writes are those the records stand for;
* `patchSafe_iff`: on any other words a word behind the last is read.

The first is an induction on the records, with the index at the first word of one. The second goes
the other way: as long as no word behind the last is read the index does not wrap, and what has been
read is a record.
-/

namespace YHAudioLink

open Programs

/-! ### The loader -/

/-- What the loader does: read a word of the plugin, and write a register. -/
inductive PatchOp
  | read (i : UInt16)
  | wrCmd (address : UInt8) (data : UInt16)
  /-- The bound on the rounds of the loop is reached. -/
  | outOfFuel
  deriving DecidableEq

/-- What comes back. -/
abbrev PatchOp.Ans : PatchOp → Type
  | read _ => UInt16
  | wrCmd _ _ => Unit
  | outOfFuel => Empty

/-- Programs of the loader. -/
abbrev Patch (α : Type) : Type := Prog PatchOp PatchOp.Ans α

/-- One operation. -/
def patchOp (o : PatchOp) : Patch (PatchOp.Ans o) := Prog.perform o

/-- The end of a run that reaches the bound. -/
def patchOut {α : Type} : Patch α := .call .outOfFuel fun e ↦ e.elim

/-- `while(n--)VS_WR_Cmd(cfg, addr, val);` -/
def runWrites (addr val : UInt16) : ℕ → Patch Unit
  | 0 => pure ()
  | n + 1 => do
    patchOp (.wrCmd addr.toUInt8 val)
    runWrites addr val n

/-- The loop of a copy record; the index behind it. -/
def copyWrites (addr : UInt16) : UInt16 → ℕ → Patch UInt16
  | i, 0 => pure i
  | i, n + 1 => do
    let val : UInt16 ← patchOp (.read i)
    patchOp (.wrCmd addr.toUInt8 val)
    copyWrites addr (i + 1) n

/-- One round of `VS_Load_Patch`, the index being `i`. -/
def loadRecord (len i : UInt16) : Patch (UInt16 ⊕ Unit) :=
  if i < len then do
    let addr : UInt16 ← patchOp (.read i)
    let n : UInt16 ← patchOp (.read (i + 1))
    if n &&& 0x8000 ≠ 0 then do
      let val : UInt16 ← patchOp (.read (i + 2))
      runWrites addr val (n &&& 0x7FFF).toNat
      pure (.inl (i + 3))
    else do
      let i' ← copyWrites addr (i + 2) n.toNat
      pure (.inl i')
  else pure (.inr ())

/-- `VS_Load_Patch`. -/
def loadPatch (fuel : ℕ) (len : UInt16) : Patch Unit := Prog.loop patchOut (loadRecord len) fuel 0

/-! ### The function of the driver -/

/-- The operations in the driver: the array is in memory, a register is written by `VS_WR_Cmd`. -/
def patchDriver (fuel : ℕ) (patch : UInt16 → UInt16) : (o : PatchOp) → Vs (PatchOp.Ans o)
  | .read i => pure (patch i)
  | .wrCmd address data => vsWrCmd fuel address data
  | .outOfFuel => outOfFuel

theorem interp_runWrites (fuel : ℕ) (patch : UInt16 → UInt16) (addr val : UInt16) (n : ℕ) :
    (runWrites addr val n).interp (patchDriver fuel patch) = patchRun fuel addr val n := by
  induction n with
  | zero => rfl
  | succ n ih =>
    rw [runWrites, patchOp, interp_perform_bind, patchRun]
    exact congrArg _ (funext fun _ ↦ ih)

theorem interp_copyWrites (fuel : ℕ) (patch : UInt16 → UInt16) (addr i : UInt16) (n : ℕ) :
    (copyWrites addr i n).interp (patchDriver fuel patch) = patchCopy fuel patch addr i n := by
  induction n generalizing i with
  | zero => rfl
  | succ n ih =>
    rw [copyWrites, patchOp, interp_perform_bind, patchCopy]
    exact congrArg (vsWrCmd fuel addr.toUInt8 (patch i) >>= ·) (funext fun _ ↦ ih (i + 1))

/-- **`VS_Load_Patch` in the driver** is the loader with each write made by `VS_WR_Cmd`. -/
theorem vsLoadPatch_eq (fuel : ℕ) (patch : UInt16 → UInt16) (len : UInt16) :
    vsLoadPatch fuel patch len = (loadPatch fuel len).interp (patchDriver fuel patch) := by
  rw [loadPatch, interp_loop, vsLoadPatch]
  refine congrArg₂ (fun out body ↦ Prog.loop out body fuel 0) ?_ (funext fun i ↦ ?_)
  · exact congrArg (Prog.call _) (funext fun e ↦ e.elim)
  · rw [loadRecord]
    split
    · simp only [patchOp, interp_perform_bind]
      change (if patch (i + 1) &&& 0x8000 ≠ 0 then _ else _) =
        Prog.interp _ (if patch (i + 1) &&& 0x8000 ≠ 0 then _ else _)
      split
      · rw [interp_perform_bind]
        change _ = Prog.interp _ (runWrites (patch i) (patch (i + 2)) _ >>= _)
        rw [interp_bind, interp_runWrites]
        rfl
      · rw [interp_bind, interp_copyWrites]
        rfl
    · rfl

/-! ### Records -/

/-- A record of a compressed plugin: the values of a register one after the other, or one value to
be written `n` times. The count has 15 bits, bit 15 being set in a run. -/
inductive PatchRecord
  | copy (addr : UInt16) (vals : {vals : List UInt16 // vals.length < 0x8000})
  | run (addr : UInt16) (n : Fin 0x8000) (val : UInt16)

namespace PatchRecord

/-- The words of a record. -/
def words : PatchRecord → List UInt16
  | copy addr vals => addr :: UInt16.ofNat vals.1.length :: vals.1
  | run addr n val => [addr, UInt16.ofNat (0x8000 + n.1), val]

/-- The writes a record stands for. -/
def writes : PatchRecord → List (UInt8 × UInt16)
  | copy addr vals => vals.1.map fun val ↦ (addr.toUInt8, val)
  | run addr n val => List.replicate n.1 (addr.toUInt8, val)

end PatchRecord

/-- The words of a plugin. -/
def patchWords (rs : List PatchRecord) : List UInt16 := rs.flatMap PatchRecord.words

/-- The writes a plugin stands for. -/
def patchWrites (rs : List PatchRecord) : List (UInt8 × UInt16) := rs.flatMap PatchRecord.writes

/-- The words of an array from index `k` on. -/
def patchSlice (patch : UInt16 → UInt16) (k n : ℕ) : List UInt16 :=
  (List.range' k n).map fun j ↦ patch (UInt16.ofNat j)

section

variable {patch : UInt16 → UInt16} {k n : ℕ}

@[simp] theorem patchSlice_length : (patchSlice patch k n).length = n := by simp [patchSlice]

theorem patchSlice_succ :
    patchSlice patch k (n + 1) = patch (UInt16.ofNat k) :: patchSlice patch (k + 1) n := rfl

theorem patchSlice_add (m : ℕ) :
    patchSlice patch k (m + n) = patchSlice patch k m ++ patchSlice patch (k + m) n := by
  rw [patchSlice, patchSlice, patchSlice, ← List.map_append, List.range'_append_1]

end

/-! ### What the loader has done -/

/-- The indices read and the registers written so far, in order. -/
@[ext]
structure PatchLog where
  reads : List UInt16
  writes : List (UInt8 × UInt16)

/-- Nothing yet. -/
def PatchLog.empty : PatchLog := ⟨[], []⟩

/-- After the words from `k` on have been read, `n` of them, and `ws` written. -/
def PatchLog.after (s : PatchLog) (k n : ℕ) (ws : List (UInt8 × UInt16)) : PatchLog :=
  ⟨s.reads ++ (List.range' k n).map UInt16.ofNat, s.writes ++ ws⟩

/-- The loader on an array: a read gives the word at the index, wherever that lies. -/
def patchStep (patch : UInt16 → UInt16) : PatchLog → Event PatchOp PatchOp.Ans → PatchLog → Prop
  | s, ⟨.read i, r⟩, t => r = patch i ∧ t = { s with reads := s.reads ++ [i] }
  | s, ⟨.wrCmd address data, _⟩, t => t = { s with writes := s.writes ++ [(address, data)] }
  | _, ⟨.outOfFuel, _⟩, _ => False

section

variable {patch : UInt16 → UInt16} {P : PatchOp → Prop} {s : PatchLog} {k n m : ℕ}
  {ws ws' : List (UInt8 × UInt16)} {len addr : UInt16}

@[simp] theorem PatchLog.after_zero : s.after k 0 [] = s := by simp [after]

theorem PatchLog.after_after :
    (s.after k n ws).after (k + n) m ws' = s.after k (n + m) (ws ++ ws') := by
  simp [after, ← List.range'_append_1]

/-- Reading a word. -/
theorem wp_patch_read {Q : UInt16 → PatchLog → Prop} :
    wp (patchStep patch) (fun _ o ↦ P o) (patchOp (.read (UInt16.ofNat k))) Q s ↔
      P (.read (UInt16.ofNat k)) ∧ Q (patch (UInt16.ofNat k)) (s.after k 1 []) := by
  rw [patchOp, wp_perform]
  refine and_congr_right fun _ ↦ ⟨fun h ↦ ?_, ?_⟩
  · exact h _ _ ⟨rfl, by simp [PatchLog.after]⟩
  · rintro h r t ⟨rfl, rfl⟩
    simpa [PatchLog.after] using h

/-- Writing a register. -/
theorem wp_patch_write {address : UInt8} {data : UInt16} {Q : Unit → PatchLog → Prop} :
    wp (patchStep patch) (fun _ o ↦ P o) (patchOp (.wrCmd address data)) Q s ↔
      P (.wrCmd address data) ∧ Q () (s.after k 0 [(address, data)]) := by
  rw [patchOp, wp_perform]
  refine and_congr_right fun _ ↦ ⟨fun h ↦ ?_, ?_⟩
  · exact h () _ (by simp [patchStep, PatchLog.after])
  · rintro h r t rfl
    simpa [PatchLog.after] using h

/-- **A run of writes.** -/
theorem wp_runWrites {val : UInt16} {Q : Unit → PatchLog → Prop} :
    wp (patchStep patch) (fun _ o ↦ P o) (runWrites addr val n) Q s ↔
      (n ≠ 0 → P (.wrCmd addr.toUInt8 val)) ∧
        Q () (s.after k 0 (List.replicate n (addr.toUInt8, val))) := by
  induction n generalizing s with
  | zero => simp [runWrites]
  | succ n ih =>
    rw [runWrites, wp_bind, wp_patch_write (k := k), ih]
    have hlog : (s.after k 0 [(addr.toUInt8, val)]).after k 0
        (List.replicate n (addr.toUInt8, val)) =
        s.after k 0 (List.replicate (n + 1) (addr.toUInt8, val)) := by
      simp [PatchLog.after, List.replicate_succ]
    rw [hlog]
    tauto

/-- **A copy**, from index `k` on. -/
theorem wp_copyWrites {Q : UInt16 → PatchLog → Prop} :
    wp (patchStep patch) (fun _ o ↦ P o) (copyWrites addr (UInt16.ofNat k) n) Q s ↔
      (∀ j ∈ List.range' k n, P (.read (UInt16.ofNat j)) ∧
        P (.wrCmd addr.toUInt8 (patch (UInt16.ofNat j)))) ∧
      Q (UInt16.ofNat (k + n))
        (s.after k n ((patchSlice patch k n).map fun val ↦ (addr.toUInt8, val))) := by
  induction n generalizing s k with
  | zero => simp [copyWrites, patchSlice]
  | succ n ih =>
    have hnext : UInt16.ofNat k + 1 = UInt16.ofNat (k + 1) := (UInt16.ofNat_add k 1).symm
    rw [copyWrites, wp_bind, wp_patch_read, wp_bind, wp_patch_write (k := k + 1), hnext, ih]
    have hlog : ((s.after k 1 []).after (k + 1) 0
        [(addr.toUInt8, patch (UInt16.ofNat k))]).after (k + 1) n
        ((patchSlice patch (k + 1) n).map fun val ↦ (addr.toUInt8, val)) =
        s.after k (n + 1) ((patchSlice patch k (n + 1)).map fun val ↦ (addr.toUInt8, val)) := by
      simp [PatchLog.after, patchSlice_succ, List.range'_succ]
    have hindex : k + 1 + n = k + (n + 1) := by omega
    rw [hlog, hindex, List.range'_succ, List.forall_mem_cons]
    tauto

/-- The count of a run. -/
def runCount (n : UInt16) : ℕ := (n &&& 0x7FFF).toNat

/-- **A round**, the index being `k`. -/
theorem wp_loadRecord {Q : UInt16 ⊕ Unit → PatchLog → Prop} (hlt : UInt16.ofNat k < len) :
    wp (patchStep patch) (fun _ o ↦ P o) (loadRecord len (UInt16.ofNat k)) Q s ↔
      P (.read (UInt16.ofNat k)) ∧ P (.read (UInt16.ofNat (k + 1))) ∧
      if patch (UInt16.ofNat (k + 1)) &&& 0x8000 ≠ 0 then
        P (.read (UInt16.ofNat (k + 2))) ∧
        (runCount (patch (UInt16.ofNat (k + 1))) ≠ 0 →
          P (.wrCmd (patch (UInt16.ofNat k)).toUInt8 (patch (UInt16.ofNat (k + 2))))) ∧
        Q (.inl (UInt16.ofNat (k + 3))) (s.after k 3
          (List.replicate (runCount (patch (UInt16.ofNat (k + 1))))
            ((patch (UInt16.ofNat k)).toUInt8, patch (UInt16.ofNat (k + 2)))))
      else
        (∀ j ∈ List.range' (k + 2) (patch (UInt16.ofNat (k + 1))).toNat,
          P (.read (UInt16.ofNat j)) ∧
          P (.wrCmd (patch (UInt16.ofNat k)).toUInt8 (patch (UInt16.ofNat j)))) ∧
        Q (.inl (UInt16.ofNat (k + 2 + (patch (UInt16.ofNat (k + 1))).toNat)))
          (s.after k (2 + (patch (UInt16.ofNat (k + 1))).toNat)
            ((patchSlice patch (k + 2) (patch (UInt16.ofNat (k + 1))).toNat).map
              fun val ↦ ((patch (UInt16.ofNat k)).toUInt8, val))) := by
  have h₁ : UInt16.ofNat k + 1 = UInt16.ofNat (k + 1) := (UInt16.ofNat_add k 1).symm
  have h₂ : UInt16.ofNat k + 2 = UInt16.ofNat (k + 2) := (UInt16.ofNat_add k 2).symm
  have h₃ : UInt16.ofNat k + 3 = UInt16.ofNat (k + 3) := (UInt16.ofNat_add k 3).symm
  rw [loadRecord, if_pos hlt, wp_bind, wp_patch_read, wp_bind, h₁, h₂, h₃, wp_patch_read,
    PatchLog.after_after, List.append_nil]
  refine and_congr_right fun _ ↦ and_congr_right fun _ ↦ ?_
  split
  · rw [wp_bind, wp_patch_read, PatchLog.after_after, List.append_nil, wp_bind,
      wp_runWrites (k := k + 3), PatchLog.after_after]
    rfl
  · rw [wp_bind, wp_copyWrites, PatchLog.after_after]
    rfl

/-! ### Counts -/

theorem and_0x8000_eq_zero_iff (w : UInt16) : w &&& 0x8000 = 0 ↔ w.toNat < 0x8000 := by
  have hbit : w.toNat.testBit 15 = true ↔ ¬ w.toNat < 0x8000 := by
    have hlt := w.toNat_lt
    rw [Nat.testBit_eq_decide_div_mod_eq, decide_eq_true_eq]
    omega
  have hmask : (w &&& 0x8000).toNat = w.toNat &&& 2 ^ 15 := UInt16.toNat_and _ _
  rw [← UInt16.toNat_inj, hmask, Nat.and_two_pow]
  rcases h : w.toNat.testBit 15 with - | -
  · simpa [h] using hbit
  · simpa [h] using hbit

theorem runCount_eq (w : UInt16) : runCount w = w.toNat % 0x8000 := by
  have hmask : (w &&& 0x7FFF).toNat = w.toNat &&& (2 ^ 15 - 1) := UInt16.toNat_and _ _
  rw [runCount, hmask, Nat.and_two_pow_sub_one_eq_mod]

/-! ### A plugin -/

/-- An index in 16 bits. -/
theorem ofNat_lt_iff (hk : k ≤ len.toNat) : UInt16.ofNat k < len ↔ k < len.toNat := by
  have hlen := len.toNat_lt
  rw [UInt16.lt_iff_toNat_lt, UInt16.toNat_ofNat_of_lt' (by simp only [UInt16.size]; omega)]

theorem PatchRecord.words_pos (r : PatchRecord) : 0 < r.words.length := by
  rcases r with ⟨addr, vals⟩ | ⟨addr, n, val⟩
  · exact Nat.succ_pos _
  · exact Nat.succ_pos _

/-- **A round on a record** reads its words and makes its writes, and leaves the index behind it. -/
theorem wp_loadRecord_record {r : PatchRecord} {Q : UInt16 ⊕ Unit → PatchLog → Prop}
    (hlt : UInt16.ofNat k < len) (hwords : patchSlice patch k r.words.length = r.words)
    (hreads : ∀ j ∈ List.range' k r.words.length, P (.read (UInt16.ofNat j)))
    (hwrites : ∀ w ∈ r.writes, P (.wrCmd w.1 w.2))
    (hQ : Q (.inl (UInt16.ofNat (k + r.words.length))) (s.after k r.words.length r.writes)) :
    wp (patchStep patch) (fun _ o ↦ P o) (loadRecord len (UInt16.ofNat k)) Q s := by
  rw [wp_loadRecord hlt]
  have hread {j : ℕ} (hj : k ≤ j) (hj' : j < k + r.words.length) : P (.read (UInt16.ofNat j)) :=
    hreads j (List.mem_range'_1.2 ⟨hj, hj'⟩)
  rcases r with ⟨addr, vals, hvals⟩ | ⟨addr, n, val⟩
  · have hlen : (PatchRecord.copy addr ⟨vals, hvals⟩).words.length = vals.length + 2 := rfl
    rw [hlen] at hwords hread hQ
    obtain ⟨haddr, hcons⟩ := List.cons.inj (patchSlice_succ.symm.trans hwords)
    obtain ⟨hcount, hvalues⟩ := List.cons.inj (patchSlice_succ.symm.trans hcons)
    have hn : (UInt16.ofNat vals.length).toNat = vals.length :=
      UInt16.toNat_ofNat_of_lt' (Nat.lt_trans hvals (by decide))
    refine ⟨hread le_rfl (by omega), hread (by omega) (by omega), ?_⟩
    rw [hcount, if_neg (not_not.2 ((and_0x8000_eq_zero_iff _).2 (hn.symm ▸ hvals))), hn, haddr]
    have hvalues : patchSlice patch (k + 2) vals.length = vals := hvalues
    have hindex : k + 2 + vals.length = k + (vals.length + 2) := by omega
    rw [hvalues, hindex, Nat.add_comm 2]
    refine ⟨fun j hj ↦ ?_, hQ⟩
    obtain ⟨hj, hj'⟩ := List.mem_range'_1.1 hj
    refine ⟨hread (by omega) (by omega), ?_⟩
    -- what is written is one of the listed values
    have hmem : patch (UInt16.ofNat j) ∈ vals := by
      rw [← hvalues]
      exact List.mem_map_of_mem (List.mem_range'_1.2 ⟨hj, hj'⟩)
    exact hwrites _ (List.mem_map_of_mem hmem)
  · have hlen : (PatchRecord.run addr n val).words.length = 3 := rfl
    rw [hlen] at hwords hread hQ
    obtain ⟨haddr, hcons⟩ := List.cons.inj (patchSlice_succ.symm.trans hwords)
    obtain ⟨hcount, hcons⟩ := List.cons.inj (patchSlice_succ.symm.trans hcons)
    obtain ⟨hvalue, -⟩ := List.cons.inj (patchSlice_succ.symm.trans hcons)
    have hn : (UInt16.ofNat (0x8000 + n.1)).toNat = 0x8000 + n.1 :=
      UInt16.toNat_ofNat_of_lt' (by have := n.2; simp only [UInt16.size]; omega)
    have hmarked : UInt16.ofNat (0x8000 + n.1) &&& 0x8000 ≠ 0 := by
      rw [ne_eq, and_0x8000_eq_zero_iff, hn]
      omega
    have hruns : runCount (UInt16.ofNat (0x8000 + n.1)) = n.1 := by
      rw [runCount_eq, hn, Nat.add_mod_left, Nat.mod_eq_of_lt n.2]
    have hvalue : patch (UInt16.ofNat (k + 2)) = val := hvalue
    refine ⟨hread le_rfl (by omega), hread (by omega) (by omega), ?_⟩
    rw [hcount, if_pos hmarked, hruns, haddr, hvalue]
    refine ⟨hread (by omega) (by omega), fun hne ↦ ?_, hQ⟩
    exact hwrites _ (List.mem_replicate.2 ⟨hne, rfl⟩)

/-- **The loop on a plugin.** -/
theorem wp_loadRecords {rs : List PatchRecord} {fuel : ℕ} {Q : Unit → PatchLog → Prop}
    (hend : k + (patchWords rs).length = len.toNat)
    (hwords : patchSlice patch k (patchWords rs).length = patchWords rs)
    (hfuel : P .outOfFuel ∨ rs.length < fuel)
    (hreads : ∀ j ∈ List.range' k (patchWords rs).length, P (.read (UInt16.ofNat j)))
    (hwrites : ∀ w ∈ patchWrites rs, P (.wrCmd w.1 w.2))
    (hQ : Q () (s.after k (patchWords rs).length (patchWrites rs))) :
    wp (patchStep patch) (fun _ o ↦ P o)
      (Prog.loop patchOut (loadRecord len) fuel (UInt16.ofNat k)) Q s := by
  have hlen := len.toNat_lt
  induction rs generalizing s k fuel with
  | nil =>
    rcases fuel with - | fuel
    · exact ⟨hfuel.resolve_right (Nat.not_lt_zero _), fun e ↦ e.elim⟩
    · have hk : k = len.toNat := hend
      have hstop : ¬ UInt16.ofNat k < len := by
        rw [hk, UInt16.ofNat_toNat]
        exact UInt16.lt_irrefl len
      rw [Prog.loop, wp_bind, loadRecord, if_neg hstop]
      simpa [patchWords, patchWrites] using hQ
  | cons r rs ih =>
    rcases fuel with - | fuel
    · exact ⟨hfuel.resolve_right (Nat.not_lt_zero _), fun e ↦ e.elim⟩
    · have hcons : patchWords (r :: rs) = r.words ++ patchWords rs := List.flatMap_cons
      have hconsw : patchWrites (r :: rs) = r.writes ++ patchWrites rs := List.flatMap_cons
      rw [hcons, List.length_append] at hend hwords hreads hQ
      rw [hconsw] at hwrites hQ
      rw [patchSlice_add] at hwords
      obtain ⟨hfirst, hrest⟩ := List.append_inj hwords patchSlice_length
      have hpos := r.words_pos
      have hlt : UInt16.ofNat k < len := (ofNat_lt_iff (by omega)).2 (by omega)
      rw [← List.range'_append_1] at hreads
      have hreads := List.forall_mem_append.1 hreads
      have hwrites := List.forall_mem_append.1 hwrites
      -- the round takes the first record, and the loop goes on behind it
      rw [Prog.loop, wp_bind]
      refine wp_loadRecord_record hlt hfirst hreads.1 hwrites.1 ?_
      refine ih (by omega) hrest (hfuel.imp_right Nat.lt_of_succ_lt_succ) hreads.2 hwrites.2 ?_
      rwa [PatchLog.after_after]

end

/-! ### Complete records -/

/-- The words of the array. -/
def patchArray (patch : UInt16 → UInt16) (len : UInt16) : List UInt16 :=
  patchSlice patch 0 len.toNat

/-- The loop ends: with enough rounds there is a run that returns, and no run goes round too
often. -/
def LoadTerminates (patch : UInt16 → UInt16) (len : UInt16) : Prop :=
  ∃ rounds, ∀ fuel, rounds < fuel →
    (∃ tr t, Returns (patchStep patch) (loadPatch fuel len) .empty tr () t) ∧
    ∀ tr k t, ¬ Steps (patchStep patch) (loadPatch fuel len) .empty tr (.call .outOfFuel k) t

/-- A machine that answers everything but the end of the rounds. -/
theorem patchStep_live (patch : UInt16 → UInt16) (s : PatchLog) (o : PatchOp)
    (ho : o ≠ .outOfFuel) :
    ∃ r t, patchStep patch s ⟨o, r⟩ t := by
  rcases o with i | ⟨address, data⟩ | -
  · exact ⟨patch i, _, rfl, rfl⟩
  · exact ⟨(), _, rfl⟩
  · exact absurd rfl ho

section

variable {patch : UInt16 → UInt16} {len : UInt16} {rs : List PatchRecord}

/-- The law of the loader on a plugin, from its first word. -/
theorem wp_loadPatch {P : PatchOp → Prop} (fuel : ℕ) (hrs : patchArray patch len = patchWords rs)
    (hfuel : P .outOfFuel ∨ rs.length < fuel)
    (hreads : ∀ j < len.toNat, P (.read (UInt16.ofNat j)))
    (hwrites : ∀ w ∈ patchWrites rs, P (.wrCmd w.1 w.2)) :
    wp (patchStep patch) (fun _ o ↦ P o) (loadPatch fuel len)
      (fun _ t ↦ t = ⟨(List.range len.toNat).map UInt16.ofNat, patchWrites rs⟩) .empty := by
  have hlen : (patchWords rs).length = len.toNat := by rw [← hrs, patchArray, patchSlice_length]
  refine wp_loadRecords (k := 0) (by rw [hlen, Nat.zero_add]) (by rw [hlen]; exact hrs) hfuel
    (fun j hj ↦ hreads j ?_) hwrites ?_
  · rw [hlen] at hj
    exact Nat.zero_add len.toNat ▸ (List.mem_range'_1.1 hj).2
  · rw [hlen, List.range_eq_range']
    rfl

theorem loadTerminates_of_words (hrs : patchArray patch len = patchWords rs) :
    LoadTerminates patch len := by
  refine ⟨rs.length, fun fuel hfuel ↦ ?_⟩
  have hwp := wp_loadPatch (P := fun o ↦ o ≠ .outOfFuel) fuel hrs (.inr hfuel) (fun _ _ ↦ by simp)
    fun _ _ ↦ by simp
  refine ⟨?_, fun tr k t hrun ↦ ok_of_wp hwp hrun rfl⟩
  obtain ⟨tr, a, t, hrun, -⟩ := exists_returns_of_wp (patchStep_live patch) hwp
  exact ⟨tr, t, hrun⟩

/-- No word behind the last is read. -/
def ReadsInside (len : UInt16) (o : PatchOp) : Prop := ∀ i, o = .read i → i < len

theorem wp_reads_inside (hrs : patchArray patch len = patchWords rs) (fuel : ℕ) :
    wp (patchStep patch) (fun _ o ↦ ReadsInside len o) (loadPatch fuel len)
      (fun _ _ ↦ True) .empty := by
  refine wp_mono (wp_loadPatch fuel hrs (.inl (by simp [ReadsInside])) (fun j hj i hi ↦ ?_)
    fun w _ ↦ by simp [ReadsInside]) fun _ _ _ ↦ trivial
  rw [← PatchOp.read.inj hi]
  exact (ofNat_lt_iff hj.le).2 hj

/-- **`VS_Load_Patch` decodes.** On the words of a list of records the loop ends, every word is read
once and in order, no other index is read, and the writes are those the records stand for. -/
theorem loadPatch_decodes (rs : List PatchRecord) (patch : UInt16 → UInt16) (len : UInt16)
    (hrs : patchArray patch len = patchWords rs) :
    LoadTerminates patch len ∧
      (∀ fuel tr t, Returns (patchStep patch) (loadPatch fuel len) .empty tr () t →
        t.reads = (List.range len.toNat).map UInt16.ofNat ∧ t.writes = patchWrites rs) ∧
      ∀ fuel tr i k t, Steps (patchStep patch) (loadPatch fuel len) .empty tr
        (.call (.read i) k) t →
        i < len := by
  refine ⟨loadTerminates_of_words hrs, fun fuel tr t hrun ↦ ?_, fun fuel tr i k t hrun ↦ ?_⟩
  · have hwp := wp_loadPatch (P := fun _ ↦ True) fuel hrs (.inl trivial)
      (fun _ _ ↦ trivial) fun _ _ ↦ trivial
    obtain rfl := post_of_wp hwp hrun
    exact ⟨rfl, rfl⟩
  · exact ok_of_wp (wp_reads_inside hrs fuel) hrun i rfl

/-- A run out of its words. -/
theorem PatchRecord.exists_run {w : UInt16} (hw : 0x8000 ≤ w.toNat) (addr val : UInt16) :
    ∃ r : PatchRecord, r.words = [addr, w, val] := by
  have hlt := w.toNat_lt
  refine ⟨.run addr ⟨w.toNat - 0x8000, by omega⟩ val, ?_⟩
  rw [words, Nat.add_sub_cancel' hw, UInt16.ofNat_toNat]

/-- A copy out of its words. -/
theorem PatchRecord.exists_copy {w : UInt16} {vals : List UInt16} (hw : w.toNat < 0x8000)
    (hvals : vals.length = w.toNat) (addr : UInt16) :
    ∃ r : PatchRecord, r.words = addr :: w :: vals := by
  refine ⟨.copy addr ⟨vals, hvals ▸ hw⟩, ?_⟩
  simp only [words, hvals, UInt16.ofNat_toNat]

/-- **The index does not wrap where no word behind the last is read**, and what is read is
records. -/
theorem exists_records {k : ℕ} {s : PatchLog} (hk : k ≤ len.toNat)
    (hsafe : ∀ fuel, wp (patchStep patch) (fun _ o ↦ ReadsInside len o)
      (Prog.loop patchOut (loadRecord len) fuel (UInt16.ofNat k)) (fun _ _ ↦ True) s) :
    ∃ rs, patchSlice patch k (len.toNat - k) = patchWords rs := by
  obtain ⟨m, hm⟩ : ∃ m, len.toNat - k = m := ⟨_, rfl⟩
  induction m using Nat.strong_induction_on generalizing k s with
  | _ m ih =>
    subst hm
    rcases hk.eq_or_lt with rfl | hlt
    · exact ⟨[], by rw [Nat.sub_self]; rfl⟩
    · have hround (fuel : ℕ) := hsafe (fuel + 1)
      simp only [Prog.loop, wp_bind, wp_loadRecord ((ofNat_lt_iff hk).2 hlt)] at hround
      have hsecond : k + 1 < len.toNat := (ofNat_lt_iff hlt).1 ((hround 0).2.1 _ rfl)
      have hslice : patchSlice patch k (len.toNat - k) = patch (UInt16.ofNat k) ::
          patch (UInt16.ofNat (k + 1)) :: patchSlice patch (k + 2) (len.toNat - (k + 2)) := by
        have hsub : len.toNat - k = len.toNat - (k + 2) + 1 + 1 := by omega
        rw [hsub, patchSlice_succ, patchSlice_succ]
      by_cases hmarked : patch (UInt16.ofNat (k + 1)) &&& 0x8000 ≠ 0
      · simp only [if_pos hmarked] at hround
        have hthird : k + 2 < len.toNat := (ofNat_lt_iff hsecond).1 ((hround 0).2.2.1 _ rfl)
        obtain ⟨rs, hrs⟩ := ih _ (by omega) (k := k + 3) hthird
          (fun fuel ↦ (hround fuel).2.2.2.2) rfl
        have hge := Nat.le_of_not_lt (mt (and_0x8000_eq_zero_iff _).2 hmarked)
        obtain ⟨r, hr⟩ := PatchRecord.exists_run hge (patch (UInt16.ofNat k))
          (patch (UInt16.ofNat (k + 2)))
        have hlast : len.toNat - (k + 2) = len.toNat - (k + 3) + 1 := by omega
        refine ⟨r :: rs, ?_⟩
        rw [hslice, hlast, patchSlice_succ, hrs, patchWords, patchWords, List.flatMap_cons, hr]
        rfl
      · simp only [if_neg hmarked] at hround
        rw [not_not, and_0x8000_eq_zero_iff] at hmarked
        have hinside : k + 2 + (patch (UInt16.ofNat (k + 1))).toNat ≤ len.toNat := by
          by_contra hout
          have hread :=
            ((hround 0).2.2.1 len.toNat (List.mem_range'_1.2 ⟨by omega, by omega⟩)).1 _ rfl
          rw [UInt16.ofNat_toNat] at hread
          exact UInt16.lt_irrefl len hread
        obtain ⟨rs, hrs⟩ := ih _ (by omega) hinside (fun fuel ↦ (hround fuel).2.2.2) rfl
        have hsplit : len.toNat - (k + 2) = (patch (UInt16.ofNat (k + 1))).toNat +
            (len.toNat - (k + 2 + (patch (UInt16.ofNat (k + 1))).toNat)) := by omega
        obtain ⟨r, hr⟩ := PatchRecord.exists_copy hmarked patchSlice_length (patch (UInt16.ofNat k))
        refine ⟨r :: rs, ?_⟩
        rw [hslice, hsplit, patchSlice_add, hrs, patchWords, patchWords, List.flatMap_cons, hr]
        rfl

/-- What a record writes stands in its words. -/
theorem PatchRecord.mem_writes {r : PatchRecord} {w : UInt8 × UInt16} (h : w ∈ r.writes) :
    ∃ addr ∈ r.words, ∃ val ∈ r.words, w = (addr.toUInt8, val) := by
  rcases r with ⟨addr, vals⟩ | ⟨addr, n, val⟩
  · obtain ⟨val, hval, rfl⟩ := List.mem_map.1 h
    exact ⟨addr, List.mem_cons_self, val, List.mem_cons_of_mem _ (List.mem_cons_of_mem _ hval), rfl⟩
  · obtain ⟨-, rfl⟩ := List.mem_replicate.1 h
    exact ⟨addr, by simp [words], val, by simp [words], rfl⟩

theorem mem_patchWrites {w : UInt8 × UInt16} (h : w ∈ patchWrites rs) :
    ∃ addr ∈ patchWords rs, ∃ val ∈ patchWords rs, w = (addr.toUInt8, val) := by
  obtain ⟨r, hr, hw⟩ := List.mem_flatMap.1 h
  obtain ⟨addr, haddr, val, hval, rfl⟩ := PatchRecord.mem_writes hw
  exact ⟨addr, List.mem_flatMap.2 ⟨r, hr, haddr⟩, val, List.mem_flatMap.2 ⟨r, hr, hval⟩, rfl⟩

/-- A word of the array stands at an index below its length. -/
theorem mem_patchArray {w : UInt16} (h : w ∈ patchArray patch len) : ∃ i < len, patch i = w := by
  obtain ⟨j, hj, rfl⟩ := List.mem_map.1 h
  have hj : j < len.toNat := Nat.zero_add len.toNat ▸ (List.mem_range'_1.1 hj).2
  exact ⟨UInt16.ofNat j, (ofNat_lt_iff hj.le).2 hj, rfl⟩

/-- **The loader is safe** on an array: it ends, reads no word behind the last, and writes only
registers and values that stand in the array. -/
def PatchSafe (patch : UInt16 → UInt16) (len : UInt16) : Prop :=
  LoadTerminates patch len ∧
    (∀ fuel tr i k t, Steps (patchStep patch) (loadPatch fuel len) .empty tr (.call (.read i) k) t →
      i < len) ∧
    ∀ fuel tr address data k t,
      Steps (patchStep patch) (loadPatch fuel len) .empty tr (.call (.wrCmd address data) k) t →
        ∃ i < len, ∃ j < len, address = (patch i).toUInt8 ∧ data = patch j

/-- **The loader is safe on complete records**, and on nothing else: the length is not looked at
inside a record. -/
theorem patchSafe_iff (patch : UInt16 → UInt16) (len : UInt16) :
    PatchSafe patch len ↔ ∃ rs, patchArray patch len = patchWords rs := by
  constructor
  · rintro ⟨-, hreads, -⟩
    refine exists_records (k := 0) (s := .empty) (Nat.zero_le _) fun fuel ↦ ?_
    exact wp_of_ok fun tr o k t hrun i ho ↦ by
      subst ho
      exact hreads fuel tr i k t hrun
  · rintro ⟨rs, hrs⟩
    refine ⟨loadTerminates_of_words hrs, fun fuel tr i k t hrun ↦ ?_, ?_⟩
    · exact ok_of_wp (wp_reads_inside hrs fuel) hrun i rfl
    · intro fuel tr address data k t hrun
      have hwp := wp_loadPatch (P := fun o ↦ ∀ address data, o = .wrCmd address data →
        ∃ i < len, ∃ j < len, address = (patch i).toUInt8 ∧ data = patch j) fuel hrs
        (.inl (by simp)) (fun _ _ ↦ by simp) fun w hw address data ho ↦ by
          obtain ⟨addr, haddr, val, hval, rfl⟩ := mem_patchWrites hw
          obtain ⟨rfl, rfl⟩ := PatchOp.wrCmd.inj ho
          rw [← hrs] at haddr hval
          obtain ⟨i, hi, rfl⟩ := mem_patchArray haddr
          obtain ⟨j, hj, rfl⟩ := mem_patchArray hval
          exact ⟨i, hi, j, hj, rfl, rfl⟩
      exact ok_of_wp hwp hrun address data rfl

/-- A plugin of one word: the second is read. -/
theorem not_patchSafe : ¬ ∀ patch len, PatchSafe patch len := by
  intro h
  obtain ⟨-, hreads, -⟩ := h (fun _ ↦ 0) 1
  have hrun : Steps (patchStep fun _ ↦ 0) (loadPatch 1 1) .empty [⟨.read 0, (0 : UInt16)⟩]
      (.call (.read 1) _) ⟨[0], []⟩ := .call ⟨rfl, rfl⟩ (.refl _ _)
  exact absurd (hreads 1 _ 1 _ _ hrun) (by decide)

end

/-! ### The shipped plugin -/

/-- `wav_plugin`. -/
def wavPlugin : List UInt16 :=
  [0x0007, 0x0001, 0x8010, 0x0006, 0x001c, 0x3e12, 0xb817, 0x3e14,
    0xf812, 0x3e01, 0xb811, 0x0007, 0x9717, 0x0020, 0xffd2, 0x0030,
    0x11d1, 0x3111, 0x8024, 0x3704, 0xc024, 0x3b81, 0x8024, 0x3101,
    0x8024, 0x3b81, 0x8024, 0x3f04, 0xc024, 0x2808, 0x4800, 0x36f1,
    0x9811, 0x0007, 0x0001, 0x8028, 0x0006, 0x0002, 0x2a00, 0x040e]

/-- Its records: two addresses in the codec's memory, with what is stored there. -/
def wavRecords : List PatchRecord :=
  [.copy 0x0007 ⟨[0x8010], by decide⟩,
    .copy 0x0006 ⟨(wavPlugin.drop 5).take 28, by decide⟩,
    .copy 0x0007 ⟨[0x8028], by decide⟩,
    .copy 0x0006 ⟨[0x2a00, 0x040e], by decide⟩]

/-- What `recoder_enter_rec_mode` loads is decoded: 32 writes. -/
theorem loadPatch_decodes_wavPlugin :
    LoadTerminates (fun i ↦ wavPlugin.getD i.toNat 0) 40 ∧ (patchWrites wavRecords).length = 32 :=
  ⟨(loadPatch_decodes wavRecords (fun i ↦ wavPlugin.getD i.toNat 0) 40 (by decide)).1, by decide⟩

end YHAudioLink
