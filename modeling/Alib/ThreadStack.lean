import Alib.ByteBlock
import Alib.Execution

/-!
# The error stack of a thread

The old error functions of `old/error.c`.  A module says how an argument is
made of a variable and how it is released and described.  The address of an
item and its argument are stored when it is pushed, its module never is.
-/

namespace Alib
namespace ThreadStack

open Execution

/-- A variable a module reports: as the pointer it fits into, or the bytes of
a type that does not fit. -/
inductive Value where
  | word (value : Ptr)
  | object (bytes : List Byte)

/-- `void *arg` of an item. -/
inductive Arg where
  | value (word : Ptr)
  | copy (block : ByteBlock)

def Arg.isNull : Arg → Bool
  | .value word => word = 0
  | .copy _ => false

/-- `add` reads its variable, `errno` or the next argument of the call, which
`source` tells, and makes the argument of the item of it. -/
structure Mod where
  source : Option (World → Value)
  freeArg : Option (Arg → World → World)
  string : Option (Env → Arg → Option ByteBlock → World →
    Except Fault (Option ByteBlock × World))

/-- The arguments of `a_error_add_real` after the first. -/
inductive VArg where
  | mod (mod : Option Mod)
  | value (value : Value)

structure StackItem where
  addr : Addr
  mod : Option Mod
  arg : Arg

structure ErrorThread where
  items : List StackItem
  mallocError : Bool
  world : World

def aErrorTestFree (ptr : Arg) (w : World) : World :=
  match ptr with
  | .value _ => w
  | .copy block => w.release block.addr

def aErrorMemdup (E : Env) (bytes : List Byte) (w : World) : Arg × World :=
  match malloc E bytes.length w with
  | (none, w) => (.value 0, w)
  | (some out, w) => (.copy ⟨out, bytes⟩, w)

/-- `a_error_arg_from_var_m` -/
def argFromVar (E : Env) (var : Value) (w : World) : Arg × World :=
  match var with
  | .word value => (.value value, w)
  | .object bytes => aErrorMemdup E bytes w

/-- `a_error_arg_free_func_m` -/
def argFreeFunc (fits : Bool) : Option (Arg → World → World) :=
  if fits then none else some aErrorTestFree

def sizeofStackItem : ℕ := 24

def allocStackItem (E : Env) (w : World) : Option StackItem × World :=
  match malloc E sizeofStackItem w with
  | (none, w) => (none, w)
  | (some out, w) => (some ⟨out, none, .value 0⟩, w)

def freeItem (item : StackItem) (w : World) : World :=
  let w :=
    match item.mod.bind Mod.freeArg with
    | none => w
    | some freeArg => if item.arg.isNull then w else freeArg item.arg w
  w.release item.addr

def freeStack (items : List StackItem) (w : World) : World :=
  items.foldl (fun w item => freeItem item w) w

def push (item : StackItem) (st : ErrorThread) : ErrorThread :=
  { st with items := item :: st.items }

def mallocError (st : ErrorThread) : ErrorThread where
  items := []
  mallocError := true
  world := freeStack st.items st.world

/-- `if((item->arg = mod->add(args))) push(...); else free(item);` -/
def addArg (E : Env) (item : StackItem) (var : Value) (st : ErrorThread) :
    ErrorThread :=
  let (arg, w) := argFromVar E var st.world
  if arg.isNull then { st with world := w.release item.addr }
  else push { item with arg := arg } { st with world := w }

/-- `while(mod)` -/
def addLoop (E : Env) : List VArg → Option Mod → ErrorThread →
    Except Fault ErrorThread
  | _, none, st => .ok st
  | args, some mod, st =>
      match allocStackItem E st.world with
      | (none, w) => .ok (mallocError { st with world := w })
      | (some item, w) =>
          match mod.source, args with
          | some read, .mod next :: rest =>
              addLoop E rest next
                (addArg E item (read w) { st with world := w })
          | none, .value var :: .mod next :: rest =>
              addLoop E rest next (addArg E item var { st with world := w })
          | _, _ => .error .outOfBounds

def aErrorAddVargs (E : Env) (mod : Option Mod) (args : List VArg)
    (st : ErrorThread) : Except Fault ErrorThread :=
  if st.mallocError then .ok st else addLoop E args mod st

/-- `while(thread_stack->head)` -/
def strLoop (E : Env) : List StackItem → Option ByteBlock → World →
    Except Fault (Option ByteBlock × World)
  | [], out, w => .ok (out, w)
  | item :: rest, out, w =>
      match item.mod.bind Mod.string with
      | none => strLoop E rest out (freeItem item w)
      | some string => do
          let (out, w) ← string E item.arg out w
          match out with
          | none => return (none, freeStack (item :: rest) w)
          | some out => strLoop E rest (some out) (freeItem item w)

def aErrorStr (E : Env) (st : ErrorThread) :
    Except Fault (Option ByteBlock × ErrorThread) :=
  if st.mallocError then .ok (none, st)
  else do
    let (out, w) ← strLoop E st.items none st.world
    return (out, { st with items := [], world := w })

def aErrorClear (st : ErrorThread) : ErrorThread :=
  { st with items := [], world := freeStack st.items st.world }

/-- Between the calls anything may store into `errno`. -/
inductive ThreadOp where
  | add (mod : Option Mod) (args : List VArg)
  | str
  | clear
  | setErrno (errno : Ptr)

inductive ThreadOut where
  | text (out : Option ByteBlock)
  | done

abbrev ThreadConfig := Config ErrorThread ThreadOp ThreadOut

def threadStep (E : Env) (st : ErrorThread) : ThreadOp →
    Except Fault (ThreadOut × ErrorThread)
  | .add mod args => do
      let st ← aErrorAddVargs E mod args st
      return (.done, st)
  | .str => do
      let (out, st) ← aErrorStr E st
      return (.text out, st)
  | .clear => .ok (.done, aErrorClear st)
  | .setErrno errno =>
      .ok (.done, { st with world := { st.world with errno := errno } })

/-- Each module finds its argument and the next module behind it. -/
def Formed : List VArg → Option Mod → Prop
  | _, none => True
  | args, some mod =>
      match mod.source, args with
      | some _, .mod next :: rest => Formed rest next
      | none, .value _ :: .mod next :: rest => Formed rest next
      | _, _ => False

def ThreadOp.Formed : ThreadOp → Prop
  | .add mod args => ThreadStack.Formed args mod
  | _ => True

/-- The variables of the modules a call names. -/
def reportedVars : List VArg → Option Mod → List (World → Value)
  | _, none => []
  | args, some mod =>
      match mod.source, args with
      | some read, .mod next :: rest => read :: reportedVars rest next
      | none, .value var :: .mod next :: rest =>
          (fun _ => var) :: reportedVars rest next
      | _, _ => []

/-- The argument which is made of a variable; it is null where the copy of an
object was refused. -/
inductive Made (E : Env) : Value → Arg → Prop
  | word (value : Ptr) : Made E (.word value) (.value value)
  | copied (addr : Addr) (bytes : List Byte) :
      Made E (.object bytes) (.copy ⟨addr, bytes⟩)
  | refused {request : ℕ} {bytes : List Byte}
      (hrefused : E.grants request bytes.length = false) :
      Made E (.object bytes) (.value 0)

/-- The calls in between leave `errno` as it was, or a refusal sets it. -/
def KeepsErrno (w after : World) : Prop :=
  after.errno = w.errno ∨ after.errno = enomem

/-- A new item with the argument made of the variable. -/
structure Gets (E : Env) (w : World) (var : World → Value)
    (item : StackItem) : Prop where
  mod : item.mod = none
  addr : w.requests ≤ item.addr
  arg : ∃ read, KeepsErrno w read ∧ Made E (var read) item.arg

/-- Each of these variables got an item, which was pushed or, for a null
argument, released again; what was on the stack stays below. -/
structure Adds (E : Env) (st : ErrorThread) (vars : List (World → Value))
    (after : ErrorThread) : Prop where
  mallocError : after.mallocError = st.mallocError
  requests_le : st.world.requests ≤ after.world.requests
  errno : KeepsErrno st.world after.world
  items : ∃ got : List StackItem,
    List.Forall₂ (Gets E st.world) vars got ∧
    after.items = (got.filter fun item => !item.arg.isNull).reverse ++
      st.items ∧
    after.world.released = st.world.released ++
      (got.filter fun item => item.arg.isNull).map StackItem.addr

/-- The item of a module was refused, and every item is released, those of the
modules before it too. -/
structure Refuses (E : Env) (st after : ErrorThread) : Prop where
  mallocError : after.mallocError = true
  items : after.items = []
  refused : ∃ request, st.world.requests ≤ request ∧
    request < after.world.requests ∧ E.grants request sizeofStackItem = false
  released : ∃ fresh, after.world.released =
      st.world.released ++ fresh ++ st.items.map StackItem.addr ∧
    ∀ a ∈ fresh, st.world.requests ≤ a

/-- Every item is released. -/
structure Emptied (st after : ErrorThread) : Prop where
  mallocError : after.mallocError = st.mallocError
  items : after.items = []
  released : after.world.released =
    st.world.released ++ st.items.map StackItem.addr

/-- What a call returns and does to the stack.  After a refused item nothing is
added any more. -/
def Does (E : Env) (st : ErrorThread) :
    ThreadOp → ThreadOut → ErrorThread → Prop
  | .add mod args, _, after =>
      if st.mallocError then after = st
      else Adds E st (reportedVars args mod) after ∨ Refuses E st after
  | .str, out, after => out = .text none ∧ Emptied st after
  | .clear, _, after => Emptied st after
  | .setErrno errno, _, after =>
      after = { st with world := { st.world with errno := errno } }

def ThreadCall (E : Env) (config : ThreadConfig) (op : ThreadOp)
    (after : ThreadConfig) : Prop :=
  ∃ out, after.transcript = config.transcript ++ [(op, out)] ∧
    Does E config.state op out after.state

/-- The calls after which the stack is empty. -/
def ThreadOp.Empties (op : ThreadOp) : Prop := op = .str ∨ op = .clear

/-- What can happen to the stack: an item is released before it was pushed, or
pushed without its module, or all items are released and none of their
arguments. -/
inductive Moves : ErrorThread → ErrorThread → Prop
  | quiet {st : ErrorThread} {w : World}
      (hrequests : st.world.requests ≤ w.requests)
      (hreleased : w.released = st.world.released) :
      Moves st { st with world := w }
  | skipped {st : ErrorThread} {w : World}
      (hrequests : st.world.requests < w.requests)
      (hreleased : w.released = st.world.released ++ [st.world.requests]) :
      Moves st { st with world := w }
  | pushed {st : ErrorThread} {w : World} {arg : Arg}
      (hquiet : st.mallocError = false)
      (hrequests : st.world.requests < w.requests)
      (hreleased : w.released = st.world.released)
      (hcopy : ∀ block, arg = .copy block →
        st.world.requests < block.addr ∧ block.addr < w.requests) :
      Moves st ⟨⟨st.world.requests, none, arg⟩ :: st.items, false, w⟩
  | dropped {st : ErrorThread} {w : World} {mallocError : Bool}
      (herror : st.mallocError = true → mallocError = true)
      (hrequests : st.world.requests ≤ w.requests)
      (hreleased : w.released =
        st.world.released ++ st.items.map StackItem.addr) :
      Moves st ⟨[], mallocError, w⟩

abbrev MovesTo := Relation.ReflTransGen Moves

section Steps

variable {E : Env} {st after : ErrorThread}

/-- No module is stored in an item, so nothing but items is released. -/
def Bare (items : List StackItem) : Prop := ∀ item ∈ items, item.mod = none

theorem freeItem_of_bare {item : StackItem} (h : item.mod = none)
    (w : World) : freeItem item w = w.release item.addr := by
  simp [freeItem, h]

theorem freeStack_of_bare {items : List StackItem} (h : Bare items)
    (w : World) :
    freeStack items w =
      { w with released := w.released ++ items.map StackItem.addr } := by
  induction items generalizing w with
  | nil => simp [freeStack]
  | cons item items ih =>
      have hrest : Bare items := fun other hother =>
        h other (List.mem_cons_of_mem _ hother)
      have hfree := freeItem_of_bare (h item List.mem_cons_self) w
      rw [freeStack, List.foldl_cons, hfree]
      have hih := ih hrest (w.release item.addr)
      rw [freeStack] at hih
      rw [hih]
      simp [World.release]

theorem strLoop_of_bare {items : List StackItem} (h : Bare items)
    (out : Option ByteBlock) (w : World) :
    strLoop E items out w = .ok (out, freeStack items w) := by
  induction items generalizing w with
  | nil => rfl
  | cons item items ih =>
      have hmod := h item List.mem_cons_self
      have hrest : Bare items := fun other hother =>
        h other (List.mem_cons_of_mem _ hother)
      rw [strLoop]
      simp only [hmod, Option.bind_none]
      rw [ih hrest]
      rfl

theorem argFromVar_spec (E : Env) (var : Value) (w : World) :
    w.requests ≤ (argFromVar E var w).2.requests ∧
      (argFromVar E var w).2.released = w.released ∧
      ∀ block, (argFromVar E var w).1 = .copy block →
        w.requests ≤ block.addr ∧
          block.addr < (argFromVar E var w).2.requests := by
  cases var with
  | word value =>
      refine ⟨le_rfl, rfl, ?_⟩
      intro block hblock
      simp [argFromVar] at hblock
  | object bytes =>
      unfold argFromVar aErrorMemdup malloc
      by_cases hgrant : E.grants w.requests bytes.length
      · simp only [hgrant, if_true]
        refine ⟨Nat.le_succ _, trivial, ?_⟩
        intro block hblock
        cases hblock
        exact ⟨le_rfl, Nat.lt_succ_self _⟩
      · simp [hgrant]

theorem argFromVar_made (E : Env) (var : Value) (w : World) :
    Made E var (argFromVar E var w).1 ∧
      KeepsErrno w (argFromVar E var w).2 := by
  cases var with
  | word value => exact ⟨.word value, Or.inl rfl⟩
  | object bytes =>
      unfold argFromVar aErrorMemdup malloc
      by_cases hgrant : E.grants w.requests bytes.length = true
      · simp only [hgrant, if_true]
        exact ⟨.copied _ _, Or.inl rfl⟩
      · simp only [hgrant, Bool.false_eq_true, if_false]
        exact ⟨.refused (Bool.eq_false_iff.mpr hgrant), Or.inr rfl⟩

theorem addArg_moves (E : Env) (var : Value) {w : World}
    (hquiet : st.mallocError = false)
    (hrequests : w.requests = st.world.requests + 1)
    (hreleased : w.released = st.world.released) :
    Moves st (addArg E ⟨st.world.requests, none, .value 0⟩ var
      { st with world := w }) := by
  obtain ⟨hle, hsame, hcopy⟩ := argFromVar_spec E var w
  unfold addArg
  by_cases hnull : (argFromVar E var w).1.isNull
  · simp only [hnull, if_true]
    refine Moves.skipped ?_ ?_
    · simp only [World.release]
      omega
    · simp [World.release, hsame, hreleased]
  · simp only [hnull, Bool.false_eq_true, if_false, push, hquiet]
    refine Moves.pushed hquiet (by omega) (hsame.trans hreleased) ?_
    intro block hblock
    obtain ⟨hlow, hhigh⟩ := hcopy block hblock
    exact ⟨by omega, hhigh⟩

theorem Moves.bare (h : Moves st after) (hbare : Bare st.items) :
    Bare after.items := by
  cases h with
  | quiet => exact hbare
  | skipped => exact hbare
  | pushed =>
      intro item hitem
      rcases List.mem_cons.mp hitem with rfl | hold
      · rfl
      · exact hbare item hold
  | dropped => exact fun item hitem => absurd hitem List.not_mem_nil

theorem addArg_mallocError (E : Env) (item : StackItem) (var : Value) :
    (addArg E item var st).mallocError = st.mallocError := by
  unfold addArg
  by_cases hnull : (argFromVar E var st.world).1.isNull
  · simp [hnull]
  · simp [hnull, push]

theorem allocStackItem_spec (E : Env) (w : World) :
    (allocStackItem E w).2.requests = w.requests + 1 ∧
      (allocStackItem E w).2.released = w.released ∧
      ∀ item, (allocStackItem E w).1 = some item →
        item = ⟨w.requests, none, .value 0⟩ := by
  unfold allocStackItem malloc
  by_cases hgrant : E.grants w.requests sizeofStackItem
  · simp only [hgrant, if_true]
    refine ⟨trivial, trivial, ?_⟩
    intro item hitem
    cases hitem
    rfl
  · simp [hgrant]

theorem KeepsErrno.trans {w mid later : World} (h : KeepsErrno w mid)
    (hlater : KeepsErrno mid later) : KeepsErrno w later := by
  rcases hlater with hsame | henomem
  · rcases h with hfirst | henomem
    · exact Or.inl (hsame.trans hfirst)
    · exact Or.inr (hsame.trans henomem)
  · exact Or.inr henomem

theorem Adds.nothing (st : ErrorThread) : Adds E st [] st :=
  ⟨rfl, le_rfl, Or.inl rfl, [], .nil, rfl, (List.append_nil _).symm⟩

theorem Adds.fresh {mid : ErrorThread} {vars : List (World → Value)}
    (h : Adds E st vars mid) {var : World → Value} {item : StackItem}
    (hgets : Gets E mid.world var item) : Gets E st.world var item := by
  obtain ⟨read, hkeeps, hmade⟩ := hgets.arg
  exact ⟨hgets.mod, h.requests_le.trans hgets.addr, read,
    h.errno.trans hkeeps, hmade⟩

theorem Adds.trans {mid : ErrorThread} {vars vars' : List (World → Value)}
    (h : Adds E st vars mid) (hlater : Adds E mid vars' after) :
    Adds E st (vars ++ vars') after := by
  obtain ⟨got, hgets, hitems, hreleased⟩ := h.items
  obtain ⟨got', hgets', hitems', hreleased'⟩ := hlater.items
  refine ⟨hlater.mallocError.trans h.mallocError,
    h.requests_le.trans hlater.requests_le, h.errno.trans hlater.errno,
    got ++ got', ?_, ?_, ?_⟩
  · exact List.rel_append hgets (hgets'.imp fun _ _ => h.fresh)
  · rw [hitems', hitems, List.filter_append, List.reverse_append,
      List.append_assoc]
  · rw [hreleased', hreleased, List.filter_append, List.map_append,
      List.append_assoc]

theorem addr_of_gets {vars : List (World → Value)} {got : List StackItem}
    {w : World} (h : List.Forall₂ (Gets E w) vars got) :
    ∀ item ∈ got, w.requests ≤ item.addr := by
  induction h with
  | nil => exact fun item hitem => absurd hitem List.not_mem_nil
  | cons hgets _ ih =>
      intro item hitem
      rcases List.mem_cons.mp hitem with rfl | hrest
      · exact hgets.addr
      · exact ih item hrest

/-- A refusal releases the items that were added before it. -/
theorem Adds.refuses {mid : ErrorThread} {vars : List (World → Value)}
    (h : Adds E st vars mid) (hlater : Refuses E mid after) :
    Refuses E st after := by
  obtain ⟨got, hgets, hitems, hreleased⟩ := h.items
  obtain ⟨fresh, hreleased', hfresh⟩ := hlater.released
  obtain ⟨request, hle, hlt, hrefused⟩ := hlater.refused
  refine ⟨hlater.mallocError, hlater.items,
    ⟨request, h.requests_le.trans hle, hlt, hrefused⟩,
    (got.filter fun item => item.arg.isNull).map StackItem.addr ++ fresh ++
      ((got.filter fun item => !item.arg.isNull).reverse).map StackItem.addr,
    ?_, ?_⟩
  · rw [hreleased', hreleased, hitems, List.map_append]
    simp only [List.append_assoc]
  · have hgot := addr_of_gets hgets
    intro a ha
    rcases List.mem_append.mp ha with hfirst | hpushed
    · rcases List.mem_append.mp hfirst with hskipped | hnew
      · obtain ⟨item, hitem, rfl⟩ := List.mem_map.mp hskipped
        exact hgot item (List.mem_of_mem_filter hitem)
      · exact h.requests_le.trans (hfresh a hnew)
    · obtain ⟨item, hitem, rfl⟩ := List.mem_map.mp hpushed
      exact hgot item (List.mem_of_mem_filter (List.mem_reverse.mp hitem))

/-- A module with its item gets its argument, and the item is kept unless that
is null. -/
theorem addArg_adds (E : Env) (var : World → Value) {w : World}
    (hrequests : w.requests = st.world.requests + 1)
    (hreleased : w.released = st.world.released)
    (herrno : w.errno = st.world.errno) :
    Adds E st [var] (addArg E ⟨st.world.requests, none, .value 0⟩ (var w)
      { st with world := w }) := by
  obtain ⟨hle, hsame, _⟩ := argFromVar_spec E (var w) w
  obtain ⟨hmade, hkeeps⟩ := argFromVar_made E (var w) w
  have hstart : KeepsErrno st.world w := Or.inl herrno
  have hgets : Gets E st.world var
      ⟨st.world.requests, none, (argFromVar E (var w) w).1⟩ :=
    ⟨rfl, le_rfl, w, hstart, hmade⟩
  unfold addArg
  by_cases hnull : (argFromVar E (var w) w).1.isNull
  · simp only [hnull, if_true]
    refine ⟨rfl, ?_, hstart.trans hkeeps, [_], .cons hgets .nil, ?_, ?_⟩
    · simp only [World.release]
      omega
    · simp [hnull]
    · simp [hnull, World.release, hsame, hreleased]
  · simp only [hnull, Bool.false_eq_true, if_false, push]
    refine ⟨rfl, ?_, hstart.trans hkeeps, [_], .cons hgets .nil, ?_, ?_⟩
    · simp only
      omega
    · simp [hnull]
    · simp [hnull, hsame, hreleased]

theorem allocStackItem_errno {item : StackItem} {w : World}
    (halloc : allocStackItem E st.world = (some item, w)) :
    w.errno = st.world.errno := by
  unfold allocStackItem malloc at halloc
  by_cases hgrant : E.grants st.world.requests sizeofStackItem
  · simp only [hgrant, if_true] at halloc
    cases halloc
    rfl
  · simp [hgrant] at halloc

/-- One turn of the loop that gets an item and its argument. -/
theorem turn_moves {item : StackItem} {w : World} (var : World → Value)
    (halloc : allocStackItem E st.world = (some item, w))
    (hbare : Bare st.items) (hquiet : st.mallocError = false) :
    Moves st (addArg E item (var w) { st with world := w }) ∧
      Adds E st [var] (addArg E item (var w) { st with world := w }) ∧
      Bare (addArg E item (var w) { st with world := w }).items ∧
      (addArg E item (var w) { st with world := w }).mallocError = false := by
  obtain ⟨hrequests, hreleased, hitem⟩ := allocStackItem_spec E st.world
  have herrno := allocStackItem_errno halloc
  rw [halloc] at hrequests hreleased hitem
  rw [hitem item rfl]
  have hmoves := addArg_moves E (var w) hquiet hrequests hreleased
  exact ⟨hmoves, addArg_adds E var hrequests hreleased herrno,
    hmoves.bare hbare, (addArg_mallocError E _ (var w)).trans hquiet⟩

theorem refuses_of_alloc {w : World} (hbare : Bare st.items)
    (halloc : allocStackItem E st.world = (none, w)) :
    Refuses E st (mallocError { st with world := w }) := by
  obtain ⟨hrequests, hreleased, _⟩ := allocStackItem_spec E st.world
  rw [halloc] at hrequests hreleased
  have hrefused : E.grants st.world.requests sizeofStackItem = false := by
    by_contra hgrant
    rw [Bool.not_eq_false] at hgrant
    simp [allocStackItem, malloc, hgrant] at halloc
  rw [mallocError, freeStack_of_bare hbare]
  refine ⟨rfl, rfl, ⟨st.world.requests, le_rfl, ?_, hrefused⟩, [], ?_,
    by simp⟩
  · exact hrequests.symm ▸ Nat.lt_succ_self _
  · simp only at hreleased
    simp only [hreleased, List.append_nil]

theorem addLoop_does {args : List VArg} {mod : Option Mod}
    (hformed : Formed args mod) (hbare : Bare st.items)
    (hquiet : st.mallocError = false) :
    ∃ after, addLoop E args mod st = .ok after ∧ MovesTo st after ∧
      (Adds E st (reportedVars args mod) after ∨ Refuses E st after) := by
  induction args, mod, st using addLoop.induct E with
  | case1 args st =>
      refine ⟨st, by rw [addLoop], .refl, Or.inl ?_⟩
      rw [reportedVars]
      exact Adds.nothing st
  | case2 args mod st w halloc =>
      have hrefuses := refuses_of_alloc hbare halloc
      obtain ⟨hrequests, hreleased, _⟩ := allocStackItem_spec E st.world
      rw [halloc] at hrequests hreleased
      refine ⟨mallocError { st with world := w }, ?_, .single ?_,
        Or.inr hrefuses⟩
      · rw [addLoop]
        simp only [halloc]
      · rw [mallocError, freeStack_of_bare hbare]
        refine Moves.dropped (fun _ => rfl) ?_ ?_
        · exact hrequests.symm ▸ Nat.le_succ _
        · simp only at hreleased
          simp only [hreleased]
  | case3 mod st item w halloc read next rest hsource ih =>
      have hrest : Formed rest next := by
        unfold Formed at hformed
        simpa only [hsource] using hformed
      obtain ⟨hmoves, hadds, hbareNext, hquietNext⟩ :=
        turn_moves read halloc hbare hquiet
      obtain ⟨after, hloop, hafter, hdoes⟩ := ih hrest hbareNext hquietNext
      refine ⟨after, ?_, hafter.head hmoves, ?_⟩
      · rw [addLoop]
        simp only [halloc, hsource]
        exact hloop
      · have hvars : reportedVars (.mod next :: rest) (some mod) =
            [read] ++ reportedVars rest next := by
          simp [reportedVars, hsource]
        rw [hvars]
        exact hdoes.imp hadds.trans hadds.refuses
  | case4 mod st item w halloc var next rest hsource ih =>
      have hrest : Formed rest next := by
        unfold Formed at hformed
        simpa only [hsource] using hformed
      obtain ⟨hmoves, hadds, hbareNext, hquietNext⟩ :=
        turn_moves (fun _ => var) halloc hbare hquiet
      obtain ⟨after, hloop, hafter, hdoes⟩ := ih hrest hbareNext hquietNext
      refine ⟨after, ?_, hafter.head hmoves, ?_⟩
      · rw [addLoop]
        simp only [halloc, hsource]
        exact hloop
      · have hvars : reportedVars (.value var :: .mod next :: rest) (some mod) =
            [fun _ => var] ++ reportedVars rest next := by
          simp [reportedVars, hsource]
        rw [hvars]
        exact hdoes.imp hadds.trans hadds.refuses
  | case5 args mod st item w halloc hread hvar =>
      -- an argument is missing
      exfalso
      unfold Formed at hformed
      split at hformed
      · exact hread _ _ _ ‹_› rfl
      · exact hvar _ _ _ ‹_› rfl
      · exact hformed

/-- What one call does to the stack of the thread. -/
theorem threadStep_does (hbare : Bare st.items)
    (hempty : st.mallocError = true → st.items = []) (op : ThreadOp)
    (hformed : op.Formed) :
    ∃ out after, threadStep E st op = .ok (out, after) ∧ MovesTo st after ∧
      Does E st op out after := by
  cases op with
  | add mod args =>
      cases hquiet : st.mallocError with
      | true =>
          refine ⟨.done, st, ?_, .refl, ?_⟩
          · simp [threadStep, aErrorAddVargs, hquiet]
          · simp only [Does, hquiet, if_true]
      | false =>
          obtain ⟨after, hloop, hmoves, hdoes⟩ := addLoop_does (E := E)
            hformed hbare hquiet
          refine ⟨.done, after, ?_, hmoves, ?_⟩
          · simp [threadStep, aErrorAddVargs, hquiet, hloop]
          · simpa only [Does, hquiet, Bool.false_eq_true, if_false] using hdoes
  | str =>
      cases hquiet : st.mallocError with
      | true =>
          have hnone := hempty hquiet
          refine ⟨.text none, st, ?_, .refl, rfl, rfl, hnone, ?_⟩
          · simp [threadStep, aErrorStr, hquiet]
          · rw [hnone, List.map_nil, List.append_nil]
      | false =>
          have hreleased : (freeStack st.items st.world).released =
              st.world.released ++ st.items.map StackItem.addr := by
            rw [freeStack_of_bare hbare]
          refine ⟨.text none, ⟨[], false, freeStack st.items st.world⟩, ?_,
            .single ?_, rfl, hquiet.symm, rfl, hreleased⟩
          · simp [threadStep, aErrorStr, hquiet, strLoop_of_bare hbare]
          · rw [freeStack_of_bare hbare]
            refine Moves.dropped ?_ le_rfl rfl
            simp [hquiet]
  | clear =>
      have hreleased : (freeStack st.items st.world).released =
          st.world.released ++ st.items.map StackItem.addr := by
        rw [freeStack_of_bare hbare]
      refine ⟨.done, aErrorClear st, rfl, .single ?_, rfl, rfl, hreleased⟩
      rw [aErrorClear, freeStack_of_bare hbare]
      exact Moves.dropped id le_rfl rfl
  | setErrno errno =>
      exact ⟨.done, _, rfl, .single (Moves.quiet le_rfl rfl), rfl⟩

theorem Does.text {op : ThreadOp} {out : ThreadOut}
    (h : Does E st op out after) (hop : op = .str) : out = .text none := by
  subst hop
  exact h.1

theorem Does.emptied {op : ThreadOp} {out : ThreadOut}
    (h : Does E st op out after) (hop : op.Empties) : after.items = [] := by
  rcases hop with rfl | rfl
  · exact h.2.items
  · exact Emptied.items h

theorem Adds.keeps {vars : List (World → Value)} (h : Adds E st vars after) :
    ∀ item ∈ st.items, item ∈ after.items := by
  obtain ⟨got, _, hitems, _⟩ := h.items
  intro item hitem
  rw [hitems]
  exact List.mem_append_right _ hitem

/-- Only a call that empties the stack or is refused an item takes an item
away. -/
theorem Does.keeps {op : ThreadOp} {out : ThreadOut}
    (h : Does E st op out after) (hop : ¬ op.Empties)
    (hquiet : after.mallocError = false) :
    ∀ item ∈ st.items, item ∈ after.items := by
  cases op with
  | add mod args =>
      rw [Does] at h
      split at h
      next =>
        subst h
        exact fun item hitem => hitem
      next =>
        rcases h with hadds | hrefuses
        · exact hadds.keeps
        · rw [hrefuses.mallocError] at hquiet
          cases hquiet
  | str => exact absurd (Or.inl rfl) hop
  | clear => exact absurd (Or.inr rfl) hop
  | setErrno errno =>
      have hafter : after = { st with world :=
        { st.world with errno := errno } } := h
      subst hafter
      exact fun item hitem => hitem

end Steps

section Runs

variable {E : Env} {st after : ErrorThread}

/-- A block from an earlier request that is not an item of the stack. -/
def Unlinked (a : Addr) (st : ErrorThread) : Prop :=
  a < st.world.requests ∧ a ∉ st.items.map StackItem.addr

/-- A block of an argument that nobody releases any more. -/
def Leaked (a : Addr) (st : ErrorThread) : Prop :=
  Unlinked a st ∧ a ∉ st.world.released

structure StackInv (st : ErrorThread) : Prop where
  bare : Bare st.items
  nodup : (st.items.map StackItem.addr).Nodup
  linked : ∀ item ∈ st.items, item.addr < st.world.requests ∧
    item.addr ∉ st.world.released
  bound : ∀ a ∈ st.world.released, a < st.world.requests
  empty : st.mallocError = true → st.items = []
  copies : ∀ item ∈ st.items, ∀ block, item.arg = .copy block →
    Leaked block.addr st

theorem Moves.requests_le (h : Moves st after) :
    st.world.requests ≤ after.world.requests := by
  cases h with
  | quiet hrequests => exact hrequests
  | skipped hrequests => exact hrequests.le
  | pushed _ hrequests => exact hrequests.le
  | dropped _ hrequests => exact hrequests

theorem Moves.unlinked {a : Addr} (h : Moves st after)
    (hunlinked : Unlinked a st) : Unlinked a after := by
  refine ⟨hunlinked.1.trans_le h.requests_le, ?_⟩
  cases h with
  | quiet => exact hunlinked.2
  | skipped => exact hunlinked.2
  | pushed =>
      rw [List.map_cons, List.mem_cons]
      exact not_or.mpr ⟨hunlinked.1.ne, hunlinked.2⟩
  | dropped => exact List.not_mem_nil

theorem Moves.leaked {a : Addr} (h : Moves st after) (hleaked : Leaked a st) :
    Leaked a after := by
  refine ⟨h.unlinked hleaked.1, ?_⟩
  have hne : a ≠ st.world.requests := hleaked.1.1.ne
  have hkept := hleaked.2
  cases h with
  | quiet _ hreleased => simpa [hreleased] using hkept
  | skipped _ hreleased => simp [hreleased, hkept, hne]
  | pushed _ _ hreleased => simpa [hreleased] using hkept
  | dropped _ _ hreleased =>
      simp only [hreleased, List.mem_append]
      exact not_or.mpr ⟨hkept, hleaked.1.2⟩

theorem StackInv.moves (hinv : StackInv st) (h : Moves st after) :
    StackInv after := by
  have hleak : ∀ item ∈ st.items, ∀ block, item.arg = .copy block →
      Leaked block.addr after := fun item hitem block hblock =>
    h.leaked (hinv.copies item hitem block hblock)
  have hbare := h.bare hinv.bare
  cases h with
  | quiet hrequests hreleased =>
      refine ⟨hbare, hinv.nodup, ?_, ?_, hinv.empty, hleak⟩
      · intro item hitem
        obtain ⟨hlt, hkept⟩ := hinv.linked item hitem
        simp only [hreleased]
        exact ⟨hlt.trans_le hrequests, hkept⟩
      · intro a ha
        simp only [hreleased] at ha
        exact (hinv.bound a ha).trans_le hrequests
  | skipped hrequests hreleased =>
      refine ⟨hbare, hinv.nodup, ?_, ?_, hinv.empty, hleak⟩
      · intro item hitem
        obtain ⟨hlt, hkept⟩ := hinv.linked item hitem
        simp only [hreleased, List.mem_append, List.mem_singleton]
        exact ⟨hlt.trans hrequests, not_or.mpr ⟨hkept, hlt.ne⟩⟩
      · intro a ha
        simp only [hreleased, List.mem_append, List.mem_singleton] at ha
        rcases ha with hold | rfl
        · exact (hinv.bound a hold).trans hrequests
        · exact hrequests
  | pushed hquiet hrequests hreleased hcopy =>
      refine ⟨hbare, ?_, ?_, ?_, by simp, ?_⟩
      · rw [List.map_cons, List.nodup_cons]
        refine ⟨?_, hinv.nodup⟩
        intro hmem
        obtain ⟨item, hitem, haddr⟩ := List.mem_map.mp hmem
        exact absurd haddr (hinv.linked item hitem).1.ne
      · intro item hitem
        simp only [hreleased]
        rcases List.mem_cons.mp hitem with rfl | hold
        · exact ⟨hrequests, fun hmem =>
            lt_irrefl _ (hinv.bound _ hmem)⟩
        · obtain ⟨hlt, hkept⟩ := hinv.linked item hold
          exact ⟨hlt.trans hrequests, hkept⟩
      · intro a ha
        simp only [hreleased] at ha
        exact (hinv.bound a ha).trans hrequests
      · intro item hitem block hblock
        rcases List.mem_cons.mp hitem with rfl | hold
        · obtain ⟨hlow, hhigh⟩ := hcopy block hblock
          refine ⟨⟨hhigh, ?_⟩, ?_⟩
          · rw [List.map_cons, List.mem_cons]
            refine not_or.mpr ⟨hlow.ne', ?_⟩
            intro hmem
            obtain ⟨other, hother, haddr⟩ := List.mem_map.mp hmem
            have hlt := (hinv.linked other hother).1
            rw [haddr] at hlt
            exact lt_asymm hlow hlt
          · simp only [hreleased]
            exact fun hmem => lt_asymm hlow (hinv.bound _ hmem)
        · exact hleak item hold block hblock
  | dropped herror hrequests hreleased =>
      refine ⟨hbare, List.nodup_nil, by simp, ?_, by simp, by simp⟩
      intro a ha
      simp only [hreleased, List.mem_append] at ha
      rcases ha with hold | hitem
      · exact (hinv.bound a hold).trans_le hrequests
      · obtain ⟨item, hmem, rfl⟩ := List.mem_map.mp hitem
        exact (hinv.linked item hmem).1.trans_le hrequests

/-- The item is on the stack, or it was released once and has left it. -/
def Settles (item : StackItem) (st : ErrorThread) : Prop :=
  (item ∈ st.items ∧ st.world.released.count item.addr = 0) ∨
    (Unlinked item.addr st ∧ st.world.released.count item.addr = 1)

theorem Moves.settles {item : StackItem} (h : Moves st after)
    (hinv : StackInv st) (hitem : Settles item st) : Settles item after := by
  have hlt : item.addr < st.world.requests := by
    rcases hitem with ⟨hmem, _⟩ | ⟨hunlinked, _⟩
    · exact (hinv.linked item hmem).1
    · exact hunlinked.1
  have hle := h.requests_le
  have hunlinked : Unlinked item.addr st → Unlinked item.addr after :=
    h.unlinked
  cases h with
  | quiet _ hreleased =>
      rcases hitem with ⟨hmem, hzero⟩ | ⟨hgone, hone⟩
      · left
        exact ⟨hmem, by simpa only [hreleased] using hzero⟩
      · right
        exact ⟨hunlinked hgone, by simpa only [hreleased] using hone⟩
  | skipped _ hreleased =>
      have hsame : (st.world.released ++ [st.world.requests]).count item.addr =
          st.world.released.count item.addr := by
        have hne : st.world.requests ≠ item.addr := hlt.ne'
        rw [List.count_append, List.count_singleton, if_neg (by simpa),
          add_zero]
      rcases hitem with ⟨hmem, hzero⟩ | ⟨hgone, hone⟩
      · left
        exact ⟨hmem, by simpa only [hreleased, hsame] using hzero⟩
      · right
        exact ⟨hunlinked hgone, by simpa only [hreleased, hsame] using hone⟩
  | pushed _ _ hreleased =>
      rcases hitem with ⟨hmem, hzero⟩ | ⟨hgone, hone⟩
      · left
        exact ⟨List.mem_cons_of_mem _ hmem,
          by simpa only [hreleased] using hzero⟩
      · right
        exact ⟨hunlinked hgone, by simpa only [hreleased] using hone⟩
  | dropped _ _ hreleased =>
      right
      refine ⟨⟨hlt.trans_le hle, List.not_mem_nil⟩, ?_⟩
      simp only [hreleased, List.count_append]
      rcases hitem with ⟨hmem, hzero⟩ | ⟨hgone, hone⟩
      · have honce := List.count_eq_one_of_mem hinv.nodup
          (List.mem_map.mpr ⟨item, hmem, rfl⟩)
        rw [hzero, honce]
      · rw [hone, List.count_eq_zero_of_not_mem hgone.2]

theorem StackInv.movesTo (hinv : StackInv st) (h : MovesTo st after) :
    StackInv after := by
  induction h with
  | refl => exact hinv
  | tail _ hmoves ih => exact ih.moves hmoves

theorem Unlinked.movesTo {a : Addr} (hunlinked : Unlinked a st)
    (h : MovesTo st after) : Unlinked a after := by
  induction h with
  | refl => exact hunlinked
  | tail _ hmoves ih => exact hmoves.unlinked ih

theorem Leaked.movesTo {a : Addr} (hleaked : Leaked a st)
    (h : MovesTo st after) : Leaked a after := by
  induction h with
  | refl => exact hleaked
  | tail _ hmoves ih => exact hmoves.leaked ih

theorem Settles.movesTo {item : StackItem} (hitem : Settles item st)
    (hinv : StackInv st) (h : MovesTo st after) : Settles item after := by
  induction h with
  | refl => exact hitem
  | tail hfirst hmoves ih => exact hmoves.settles (hinv.movesTo hfirst) ih

theorem Moves.stays_error (h : Moves st after)
    (herror : st.mallocError = true) : after.mallocError = true := by
  cases h with
  | quiet => exact herror
  | skipped => exact herror
  | pushed hquiet => exact absurd herror (by simp [hquiet])
  | dropped hkeeps => exact hkeeps herror

theorem MovesTo.stays_error (h : MovesTo st after)
    (herror : st.mallocError = true) : after.mallocError = true := by
  induction h with
  | refl => exact herror
  | tail _ hmoves ih => exact hmoves.stays_error ih

/-- Every run of calls that are well formed completes, moves the stack, and
hands back no text; an item leaves the stack with the first call that empties
it or is refused an item. -/
theorem run_moves {ops : List ThreadOp} (hformed : ∀ op ∈ ops, op.Formed)
    {config : ThreadConfig} (hinv : StackInv config.state) :
    ∃ final, run (threadStep E) config ops = .ok final ∧
      MovesTo config.state final.state ∧
      (∀ out, (.str, out) ∈ final.transcript →
        (.str, out) ∈ config.transcript ∨ out = .text none) ∧
      ((∃ op ∈ ops, op.Empties) → ∀ item ∈ config.state.items,
        item ∉ final.state.items) ∧
      ((∀ op ∈ ops, ¬ op.Empties) → final.state.mallocError = false →
        ∀ item ∈ config.state.items, item ∈ final.state.items) := by
  induction ops generalizing config with
  | nil => exact ⟨config, rfl, .refl, fun out hout => Or.inl hout, by simp⟩
  | cons op rest ih =>
      obtain ⟨out, state, hstep, hmoves, hdoes⟩ :=
        @threadStep_does E _ hinv.bare hinv.empty op
          (hformed op List.mem_cons_self)
      have hconfig : config.step (threadStep E) op =
          .ok ⟨state, config.transcript ++ [(op, out)]⟩ :=
        Config.step_of_ok hstep
      have hinvNext := hinv.movesTo hmoves
      have hformedRest : ∀ other ∈ rest, other.Formed := fun other hother =>
        hformed other (List.mem_cons_of_mem _ hother)
      obtain ⟨final, hfinal, hrest, houts, hgone, hkept⟩ :=
        @ih hformedRest ⟨state, config.transcript ++ [(op, out)]⟩ hinvNext
      refine ⟨final, ?_, hmoves.trans hrest, ?_, ?_, ?_⟩
      · rw [run, hconfig]
        exact hfinal
      · intro other hother
        rcases houts other hother with hold | hnone
        · rcases List.mem_append.mp hold with hearlier | hnew
          · exact Or.inl hearlier
          · right
            simp only [List.mem_singleton, Prod.mk.injEq] at hnew
            rw [hnew.2]
            exact hdoes.text hnew.1.symm
        · exact Or.inr hnone
      · rintro ⟨other, hother, hotherEmpties⟩ item hitem
        have hlinked := hinv.linked item hitem
        have hzero := List.count_eq_zero_of_not_mem hlinked.2
        have hsettles : Settles item state :=
          Settles.movesTo (Or.inl ⟨hitem, hzero⟩) hinv hmoves
        rcases hsettles with ⟨hstays, _⟩ | ⟨hunlinked, _⟩
        · rcases List.mem_cons.mp hother with rfl | hlater
          · rw [hdoes.emptied hotherEmpties] at hstays
            exact absurd hstays List.not_mem_nil
          · exact hgone ⟨other, hlater, hotherEmpties⟩ item hstays
        · intro hmem
          exact (hunlinked.movesTo hrest).2 (List.mem_map.mpr ⟨item, hmem, rfl⟩)
      · intro hops hfinalQuiet item hitem
        have hquiet : state.mallocError = false := by
          by_contra herror
          rw [Bool.not_eq_false] at herror
          rw [hrest.stays_error herror] at hfinalQuiet
          cases hfinalQuiet
        have hstays := hdoes.keeps (hops op List.mem_cons_self) hquiet item
          hitem
        exact hkept (fun other hother =>
          hops other (List.mem_cons_of_mem _ hother)) hfinalQuiet item hstays

theorem threadStep_call (config : ThreadConfig) (op : ThreadOp)
    (hinv : StackInv config.state) (hformed : op.Formed) :
    ∃ after, config.step (threadStep E) op = .ok after ∧
      ThreadCall E config op after ∧ StackInv after.state := by
  obtain ⟨out, state, hstep, hmoves, hdoes⟩ :=
    @threadStep_does E _ hinv.bare hinv.empty op hformed
  exact ⟨_, Config.step_of_ok hstep, ⟨out, rfl, hdoes⟩, hinv.movesTo hmoves⟩

theorem stackInv_empty {w : World} (hbound : ∀ a ∈ w.released, a < w.requests) :
    StackInv ⟨[], false, w⟩ where
  bare := fun item hitem => absurd hitem List.not_mem_nil
  nodup := List.nodup_nil
  linked := by simp
  bound := hbound
  empty := by simp
  copies := by simp

/-- No run of the functions reports anything: every text is `NULL`, since no
item keeps its module.  Each call does what it should to the stack; an item
which is on it at some time is still there later exactly if no call between
asked for the text or cleared the stack and no item was refused, and has been
released once if it is not; its argument is never released.  After a refused
item the stack stays empty for good. -/
theorem thread_stack_reports_nothing (E : Env) {w : World}
    (hbound : ∀ a ∈ w.released, a < w.requests)
    (first second : List ThreadOp)
    (hfirst : ∀ op ∈ first, op.Formed) (hsecond : ∀ op ∈ second, op.Formed) :
    Keeps (threadStep E) (ThreadCall E) (Config.initial ⟨[], false, w⟩)
        (first ++ second) ∧
      ∃ config final,
        run (threadStep E) (Config.initial ⟨[], false, w⟩) first =
            .ok config ∧
          run (threadStep E) config second = .ok final ∧
          (∀ out, (.str, out) ∈ final.transcript → out = .text none) ∧
          (∀ item ∈ config.state.items,
            (item ∈ final.state.items ↔
              (∀ op ∈ second, ¬ op.Empties) ∧
                final.state.mallocError = false) ∧
            (item ∈ final.state.items ∧
                final.state.world.released.count item.addr = 0 ∨
              item ∉ final.state.items ∧
                final.state.world.released.count item.addr = 1) ∧
            ∀ block, item.arg = .copy block →
              block.addr ∉ final.state.world.released) ∧
          (config.state.mallocError = true →
            final.state.mallocError = true ∧ final.state.items = []) := by
  have hstart : StackInv (Config.initial ⟨[], false, w⟩ :
      ThreadConfig).state := stackInv_empty hbound
  have hall : ∀ op ∈ first ++ second, op.Formed := by
    intro op hop
    rcases List.mem_append.mp hop with hearly | hlate
    · exact hfirst op hearly
    · exact hsecond op hlate
  refine ⟨keeps_of_meets threadStep_call hstart
    (meets_of_forall (fun op hop _ => hall op hop) _), ?_⟩
  obtain ⟨config, hconfig, hmoves, htexts, _⟩ := @run_moves E _ hfirst _ hstart
  have hinv := hstart.movesTo hmoves
  obtain ⟨final, hfinal, hlater, hothers, hgone, hkept⟩ :=
    @run_moves E _ hsecond _ hinv
  have hinvFinal := hinv.movesTo hlater
  refine ⟨config, final, hconfig, hfinal, ?_, ?_, ?_⟩
  · intro out hout
    rcases hothers out hout with hold | hnone
    · rcases htexts out hold with hnever | hnone
      · exact absurd hnever List.not_mem_nil
      · exact hnone
    · exact hnone
  · intro item hitem
    have hzero := List.count_eq_zero_of_not_mem (hinv.linked item hitem).2
    have hsettles : Settles item config.state := Or.inl ⟨hitem, hzero⟩
    refine ⟨⟨fun hmem => ⟨fun op hop hempties => ?_, ?_⟩, ?_⟩, ?_, ?_⟩
    · exact hgone ⟨op, hop, hempties⟩ item hitem hmem
    · by_contra herror
      rw [Bool.not_eq_false] at herror
      rw [hinvFinal.empty herror] at hmem
      exact absurd hmem List.not_mem_nil
    · rintro ⟨hops, hquiet⟩
      exact hkept hops hquiet item hitem
    · rcases hsettles.movesTo hinv hlater with hlinked | ⟨hunlinked, hcount⟩
      · left
        exact hlinked
      · right
        exact ⟨fun hmem => hunlinked.2 (List.mem_map.mpr ⟨item, hmem, rfl⟩),
          hcount⟩
    · intro block hblock
      exact ((hinv.copies item hitem block hblock).movesTo hlater).2
  · intro herror
    have hlate := hlater.stays_error herror
    exact ⟨hlate, hinvFinal.empty hlate⟩

/-- A module whose variables do not fit into a pointer. -/
def wideMod : Mod where
  source := none
  freeArg := argFreeFunc false
  string := none

/-- A call that reports two variables with this module. -/
def addTwo : ThreadOp :=
  .add (some wideMod) [.value (.object [1#8]), .mod (some wideMod),
    .value (.object [2#8]), .mod none]

/-- The first four requests are granted. -/
def fourGranted : Env where
  grants := fun request _ => request < 4
  garbage := fun _ _ => 0
  userGetcode := fun _ => none

/-- Two items with their arguments, and a third which is refused. -/
theorem thread_stack_reports_nothing_wide :
    Keeps (threadStep fourGranted) (ThreadCall fourGranted)
        (Config.initial ⟨[], false, ⟨0, 0, .null, [], false⟩⟩)
        ([addTwo] ++ [.setErrno 5, addTwo]) ∧
      ∃ config final,
        run (threadStep fourGranted)
            (Config.initial ⟨[], false, ⟨0, 0, .null, [], false⟩⟩) [addTwo] =
            .ok config ∧
          run (threadStep fourGranted) config [.setErrno 5, addTwo] =
            .ok final ∧
          (∀ out, (.str, out) ∈ final.transcript → out = .text none) ∧
          (∀ item ∈ config.state.items,
            (item ∈ final.state.items ↔
              (∀ op ∈ [.setErrno 5, addTwo], ¬ op.Empties) ∧
                final.state.mallocError = false) ∧
            (item ∈ final.state.items ∧
                final.state.world.released.count item.addr = 0 ∨
              item ∉ final.state.items ∧
                final.state.world.released.count item.addr = 1) ∧
            ∀ block, item.arg = .copy block →
              block.addr ∉ final.state.world.released) ∧
          (config.state.mallocError = true →
            final.state.mallocError = true ∧ final.state.items = []) :=
  thread_stack_reports_nothing fourGranted (by simp) [addTwo]
    [.setErrno 5, addTwo] (by simp [addTwo, ThreadOp.Formed, Formed, wideMod])
    (by simp [addTwo, ThreadOp.Formed, Formed, wideMod])

end Runs

end ThreadStack
end Alib
