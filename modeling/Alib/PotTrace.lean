import Alib.PotGrowth

/-!
# The slots a pot call reads and writes

The loops of the pot and the two calls that run them, with the accesses to the
array listed in order.  Dropping the list gives the calls back.  For any
`before` at all the loops end and stay inside the array.
-/

namespace Alib
namespace Pot

inductive Access where
  | read (slot : ℕ)
  | write (slot : ℕ)
  deriving DecidableEq, Repr

/-- `a_swap_xor_m(array[i], array[j])` -/
def swapTrace (i j : ℕ) : List Access :=
  [.read i, .read j, .write i, .read j, .read i, .write j, .read i, .read j,
    .write i]

def bubbleUpTraced (before : Before) :
    ℕ → ℕ → Block → Except Fault (List Access × Block)
  | 0, _, _ => .error .divergence
  | fuel + 1, pos, block =>
      if pos = 0 then .ok ([], block)
      else do
        let value ← block.read pos
        let parent ← block.read (pos / 2)
        if before value parent = false then
          return ([.read pos, .read (pos / 2)], block)
        else
          let block ← aSwapXor block pos (pos / 2)
          let (trace, block) ← bubbleUpTraced before fuel (pos / 2) block
          return (.read pos :: .read (pos / 2) ::
            (swapTrace pos (pos / 2) ++ trace), block)

def minChildTrace (num pos : ℕ) : List Access :=
  if pos * 2 + 1 ≤ num then [.read (pos * 2 + 1), .read (pos * 2)] else []

def bubbleDownFromTraced (before : Before) (num : ℕ) :
    ℕ → ℕ → Block → Except Fault (List Access × Block)
  | 0, _, _ => .error .divergence
  | fuel + 1, pos, block =>
      if num < pos * 2 then .ok ([], block)
      else do
        let child ← minChildPos before num pos block
        let below ← block.read child
        let value ← block.read pos
        if before below value then
          let block ← aSwapXor block child pos
          let (trace, block) ←
            bubbleDownFromTraced before num fuel child block
          return (minChildTrace num pos ++ .read child :: .read pos ::
            (swapTrace child pos ++ trace), block)
        else
          let (trace, block) ←
            bubbleDownFromTraced before num fuel child block
          return (minChildTrace num pos ++ .read child :: .read pos :: trace,
            block)

def bubbleDownTraced (before : Before) (num : ℕ) (block : Block) :
    Except Fault (List Access × Block) :=
  if 1 ≤ num / 2 then bubbleDownFromTraced before num (num + 1) 1 block
  else .ok ([], block)

def aPotInsertTraced (E : Env) (ptr : Ptr) (st : PotState) :
    Except Fault (List Access × Bool × PotState) := do
  let (resized, st) ← aPotResize E (sizeAdd st.pot.num 1) st
  if resized = false then return ([], false, st)
  else
    let num := sizeAdd st.pot.num 1
    let block ← arrayOf st.pot
    let block ← block.write num ptr
    let (trace, block) ← bubbleUpTraced st.pot.before (num + 1) num block
    return (.write num :: trace, true, { st with pot :=
      { st.pot with num := num, array := some block } })

def aPotRemoveTopTraced (st : PotState) :
    Except Fault (List Access × Ptr × PotState) :=
  if st.pot.num = 0 then .ok ([], 0, st)
  else do
    let block ← arrayOf st.pot
    let ret ← block.read 1
    let last ← block.read st.pot.num
    let block ← block.write 1 last
    let num := st.pot.num - 1
    let (trace, block) ← bubbleDownTraced st.pot.before num block
    return (.read 1 :: .read st.pot.num :: .write 1 :: trace, ret,
      { st with pot := { st.pot with num := num, array := some block } })

def untraced (call : Except Fault (PotOut × PotState)) :
    Except Fault ((PotOut × List Access) × PotState) :=
  call.map fun result => ((result.1, []), result.2)

/-- A call together with its accesses to the array. -/
def tracedStep (E : Env) (before : Before) (st : PotState) :
    PotOp → Except Fault ((PotOut × List Access) × PotState)
  | .insert ptr => do
      let (trace, returned, st) ← aPotInsertTraced E ptr st
      return ((.pot returned, trace), st)
  | .removeTop => do
      let (trace, ret, st) ← aPotRemoveTopTraced st
      return ((.value ret, trace), st)
  | .init size => untraced (potStep E before st (.init size))
  | .resize newSize => untraced (potStep E before st (.resize newSize))
  | .cleanup => untraced (potStep E before st .cleanup)

section Projection

variable (before : Before)

theorem bubbleUpTraced_block (fuel pos : ℕ) (block : Block) :
    (bubbleUpTraced before fuel pos block).map Prod.snd =
      bubbleUp before fuel pos block := by
  induction fuel generalizing pos block with
  | zero => rfl
  | succ fuel ih =>
      unfold bubbleUpTraced bubbleUp
      by_cases hzero : pos = 0
      · rw [if_pos hzero, if_pos hzero]
        rfl
      · rw [if_neg hzero, if_neg hzero]
        cases block.read pos with
        | error fault => rfl
        | ok value =>
        cases block.read (pos / 2) with
        | error fault => rfl
        | ok parent =>
        simp only [ok_bind]
        by_cases hbefore : before value parent = false
        · rw [if_pos hbefore, if_pos hbefore]
          rfl
        · rw [if_neg hbefore, if_neg hbefore]
          cases aSwapXor block pos (pos / 2) with
          | error fault => rfl
          | ok block =>
              simp only [ok_bind]
              rw [← ih]
              cases bubbleUpTraced before fuel (pos / 2) block <;> rfl

theorem bubbleDownFromTraced_block (num fuel pos : ℕ) (block : Block) :
    (bubbleDownFromTraced before num fuel pos block).map Prod.snd =
      bubbleDownFrom before num fuel pos block := by
  induction fuel generalizing pos block with
  | zero => rfl
  | succ fuel ih =>
      unfold bubbleDownFromTraced bubbleDownFrom
      by_cases hleaf : num < pos * 2
      · rw [if_pos hleaf, if_pos hleaf]
        rfl
      · rw [if_neg hleaf, if_neg hleaf]
        cases minChildPos before num pos block with
        | error fault => rfl
        | ok child =>
        simp only [ok_bind]
        cases block.read child with
        | error fault => rfl
        | ok below =>
        cases block.read pos with
        | error fault => rfl
        | ok value =>
        simp only [ok_bind]
        by_cases hbefore : before below value = true
        · rw [if_pos hbefore, if_pos hbefore]
          cases aSwapXor block child pos with
          | error fault => rfl
          | ok block =>
              simp only [ok_bind]
              rw [← ih]
              cases bubbleDownFromTraced before num fuel child block <;> rfl
        · rw [if_neg hbefore, if_neg hbefore, ← ih]
          cases bubbleDownFromTraced before num fuel child block <;> rfl

theorem bubbleDownTraced_block (num : ℕ) (block : Block) :
    (bubbleDownTraced before num block).map Prod.snd =
      bubbleDown before num block := by
  unfold bubbleDownTraced bubbleDown
  split
  · exact bubbleDownFromTraced_block before num (num + 1) 1 block
  · rfl

theorem aPotInsertTraced_result (E : Env) (ptr : Ptr) (st : PotState) :
    (aPotInsertTraced E ptr st).map Prod.snd = aPotInsert E ptr st := by
  unfold aPotInsertTraced aPotInsert
  cases aPotResize E (sizeAdd st.pot.num 1) st with
  | error fault => rfl
  | ok resized =>
  rcases resized with ⟨resized, st'⟩
  simp only [ok_bind]
  cases resized with
  | false => rfl
  | true =>
  simp only [Bool.true_eq_false, if_false]
  cases arrayOf st'.pot with
  | error fault => rfl
  | ok block =>
  simp only [ok_bind]
  cases block.write (sizeAdd st'.pot.num 1) ptr with
  | error fault => rfl
  | ok block =>
  simp only [ok_bind]
  rw [← bubbleUpTraced_block]
  cases bubbleUpTraced st'.pot.before (sizeAdd st'.pot.num 1 + 1)
    (sizeAdd st'.pot.num 1) block <;> rfl

theorem aPotRemoveTopTraced_result (st : PotState) :
    (aPotRemoveTopTraced st).map Prod.snd = aPotRemoveTop st := by
  unfold aPotRemoveTopTraced aPotRemoveTop
  by_cases hzero : st.pot.num = 0
  · rw [if_pos hzero, if_pos hzero]
    rfl
  rw [if_neg hzero, if_neg hzero]
  cases arrayOf st.pot with
  | error fault => rfl
  | ok block =>
  simp only [ok_bind]
  cases block.read 1 with
  | error fault => rfl
  | ok ret =>
  simp only [ok_bind]
  cases block.read st.pot.num with
  | error fault => rfl
  | ok last =>
  simp only [ok_bind]
  cases block.write 1 last with
  | error fault => rfl
  | ok block =>
  simp only [ok_bind]
  rw [← bubbleDownTraced_block]
  cases bubbleDownTraced st.pot.before (st.pot.num - 1) block <;> rfl

theorem untraced_result (call : Except Fault (PotOut × PotState)) :
    (untraced call).map (fun result => (result.1.1, result.2)) = call := by
  cases call with
  | error fault => rfl
  | ok result => rfl

/-- Without the accesses a traced call is the call. -/
theorem tracedStep_result (E : Env) (st : PotState) (op : PotOp) :
    (tracedStep E before st op).map (fun result => (result.1.1, result.2)) =
      potStep E before st op := by
  cases op with
  | insert ptr =>
      unfold tracedStep potStep
      simp only
      rw [← aPotInsertTraced_result]
      cases aPotInsertTraced E ptr st with
      | error fault => rfl
      | ok result => rfl
  | removeTop =>
      unfold tracedStep potStep
      simp only
      rw [← aPotRemoveTopTraced_result]
      cases aPotRemoveTopTraced st with
      | error fault => rfl
      | ok result => rfl
  | init size => exact untraced_result _
  | resize newSize => exact untraced_result _
  | cleanup => exact untraced_result _

end Projection

section Completion

variable {before : Before}

/-- `bubble_up` halves its position, whatever `before` answers.  Unless it
starts at slot zero it first reads its slot and the parent. -/
theorem bubbleUpTraced_ok {fuel pos : ℕ} {block : Block} (hpos : pos < fuel)
    (hhas : block.Has pos) :
    ∃ trace word,
      bubbleUpTraced before fuel pos block =
        .ok (trace, Block.withWords block word) ∧
      (0 < pos → ∃ rest, trace = .read pos :: .read (pos / 2) :: rest) := by
  induction fuel generalizing pos block with
  | zero => omega
  | succ fuel ih =>
      unfold bubbleUpTraced
      by_cases hzero : pos = 0
      · exact ⟨[], block.word, by rw [if_pos hzero]; rfl, by omega⟩
      · have hhasParent : block.Has (pos / 2) :=
          Block.has_of_le hhas (by omega)
        rw [if_neg hzero, Block.read_of_has hhas,
          Block.read_of_has hhasParent]
        simp only [ok_bind]
        by_cases hbefore :
            before (block.word pos) (block.word (pos / 2)) = false
        · rw [if_pos hbefore]
          exact ⟨_, block.word, rfl, fun _ => ⟨[], rfl⟩⟩
        · obtain ⟨trace, word, hrest, _⟩ :=
            @ih (pos / 2) (Block.withWords block
              (block.word ∘ Equiv.swap pos (pos / 2))) (by omega) hhasParent
          rw [if_neg hbefore, aSwapXor_eq hhas hhasParent (by omega)]
          simp only [ok_bind, hrest]
          exact ⟨_, word, rfl, fun _ => ⟨_, rfl⟩⟩

theorem minChildPos_ok {num pos : ℕ} {block : Block} (hhas : block.Has num)
    (hchild : pos * 2 ≤ num) :
    ∃ child, minChildPos before num pos block = .ok child ∧
      pos * 2 ≤ child ∧ child ≤ num := by
  have hhasFirst : block.Has (pos * 2) := Block.has_of_le hhas hchild
  unfold minChildPos
  by_cases hsecond : pos * 2 + 1 ≤ num
  · rw [if_pos hsecond, Block.read_of_has hhasFirst,
      Block.read_of_has (Block.has_of_le hhas hsecond)]
    refine ⟨_, rfl, ?_⟩
    split
    · exact ⟨Nat.le_succ _, hsecond⟩
    · exact ⟨le_rfl, hchild⟩
  · rw [if_neg hsecond]
    exact ⟨pos * 2, rfl, le_rfl, hchild⟩

theorem bubbleDownFromTraced_ok {num fuel pos : ℕ} {block : Block}
    (hpos : 1 ≤ pos) (hnum : pos ≤ num) (hfuel : num + 1 < pos + fuel)
    (hhas : block.Has num) :
    ∃ trace word,
      bubbleDownFromTraced before num fuel pos block =
        .ok (trace, Block.withWords block word) := by
  induction fuel generalizing pos block with
  | zero => omega
  | succ fuel ih =>
      unfold bubbleDownFromTraced
      by_cases hleaf : num < pos * 2
      · exact ⟨[], block.word, by rw [if_pos hleaf]; rfl⟩
      · obtain ⟨child, hchild, hlow, hhigh⟩ : ∃ child,
            minChildPos before num pos block = .ok child ∧
              pos * 2 ≤ child ∧ child ≤ num :=
          minChildPos_ok hhas (Nat.le_of_not_lt hleaf)
        have hhasChild : block.Has child := Block.has_of_le hhas hhigh
        have hhasPos : block.Has pos := Block.has_of_le hhas hnum
        rw [if_neg hleaf, hchild]
        simp only [ok_bind, Block.read_of_has hhasChild,
          Block.read_of_has hhasPos]
        by_cases hbefore : before (block.word child) (block.word pos) = true
        · obtain ⟨trace, word, hrest⟩ :=
            @ih child (Block.withWords block
              (block.word ∘ Equiv.swap child pos)) (by omega) hhigh (by omega)
              hhas
          rw [if_pos hbefore, aSwapXor_eq hhasChild hhasPos (by omega)]
          simp only [ok_bind, hrest]
          exact ⟨_, word, rfl⟩
        · obtain ⟨trace, word, hrest⟩ :=
            @ih child block (by omega) hhigh (by omega) hhas
          rw [if_neg hbefore, hrest]
          exact ⟨_, word, rfl⟩

theorem bubbleDownTraced_ok {num : ℕ} {block : Block} (hhas : block.Has num) :
    ∃ trace word,
      bubbleDownTraced before num block =
        .ok (trace, Block.withWords block word) := by
  unfold bubbleDownTraced
  by_cases htwo : 1 ≤ num / 2
  · rw [if_pos htwo]
    exact bubbleDownFromTraced_ok le_rfl (by omega) (by omega) hhas
  · rw [if_neg htwo]
    exact ⟨[], block.word, rfl⟩

end Completion

end Pot
end Alib
