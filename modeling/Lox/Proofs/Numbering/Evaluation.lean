import Lox.Proofs.Numbering.Steps

/-!
# Runs that do not look at numbers

By induction on the budget every procedure of the evaluator mirrors itself on machines
with other numbers. For a whole run this says two things. A machine whose numbers were all
given by its own counter holds no others, and goes on to hold no others. And numbers given
before a run do not matter to it: with them exchanged it ends in the same way, prints the
same, and leaves the machine it leaves otherwise with the same exchange.
-/

namespace Lox

open Eval

namespace Eval

variable {π : Nat → Nat} (hπ : Function.Injective π)

/-- Everything the evaluator does with a budget of `n` it does on machines with other
numbers as well. -/
structure MirrorsAll (π : Nat → Nat) (n : Nat) : Prop where
  eval : ∀ e, Mirrors π (Value.renumber π) (eval n e) (eval n e)
  evalAll : ∀ es, Mirrors π (List.map (Value.renumber π)) (evalAll n es) (evalAll n es)
  call : ∀ callee vs, Mirrors π (Value.renumber π) (call n callee vs)
    (call n (callee.renumber π) (vs.map (Value.renumber π)))
  exec : ∀ s, Mirrors π (Completion.renumber π) (exec n s) (exec n s)
  execAll : ∀ body, Mirrors π (Completion.renumber π) (execAll n body) (execAll n body)
  loop : ∀ c body, Mirrors π (Completion.renumber π) (loop n c body) (loop n c body)
  execUnit : ∀ program, Mirrors π id (execUnit n program) (execUnit n program)

section

variable {n : Nat} (ih : MirrorsAll π n)

include ih

include hπ in
theorem mirrors_eval (e : Expr Slot) :
    Mirrors π (Value.renumber π) (Eval.eval (n + 1) e) (Eval.eval (n + 1) e) := by
  cases e with
  | literal value =>
      rw [Eval.eval]
      have hvalue : value.toValue.renumber π = value.toValue := by cases value <;> rfl
      have hpure := @mirrors_pure _ π (Value.renumber π) value.toValue
      rwa [hvalue] at hpure
  | var | thisRef =>
      rw [Eval.eval]
      exact mirrors_lookUp _ _
  | superRef =>
      rw [Eval.eval]
      exact mirrors_superMethod _ _
  | grouping a =>
      rw [Eval.eval]
      exact ih.eval a
  | unary operator a =>
      rw [Eval.eval]
      exact (ih.eval a).bind fun v => mirrors_unaryOp operator v
  | binary a operator b =>
      rw [Eval.eval]
      exact (ih.eval a).bind fun u => (ih.eval b).bind fun v => mirrors_binaryOp hπ operator u v
  | logical a operator b =>
      rw [Eval.eval]
      refine (ih.eval a).bind fun v => ?_
      have hsettles : settles operator (v.renumber π) = settles operator v := by
        rw [settles, settles, Value.truthy_renumber]
      rw [hsettles]
      cases settles operator v with
      | true => exact mirrors_pure v
      | false => exact ih.eval b
  | conditional c a b =>
      rw [Eval.eval]
      refine (ih.eval c).bind fun v => ?_
      rw [Value.truthy_renumber]
      cases v.truthy with
      | true => exact ih.eval a
      | false => exact ih.eval b
  | assign name slot a =>
      rw [Eval.eval]
      exact (ih.eval a).bind fun v => (mirrors_assign name slot v).bind fun _ => mirrors_pure v
  | call callee paren arguments =>
      rw [Eval.eval]
      refine (ih.eval callee).bind fun f => (ih.evalAll arguments).bind fun vs => ?_
      rw [List.length_map]
      exact (mirrors_checkCall f vs.length paren).bind fun _ => (ih.call f vs).reporting paren
  | get a name =>
      rw [Eval.eval]
      exact (ih.eval a).bind fun v => mirrors_getProperty v name
  | set a name b =>
      rw [Eval.eval]
      refine (ih.eval a).bind fun o => (mirrors_fieldOwner o name).bind fun ref => ?_
      exact (ih.eval b).bind fun v => (mirrors_setField ref name.lexeme v).bind fun _ =>
        mirrors_pure v
  | vector bracket elements =>
      rw [Eval.eval]
      refine (ih.evalAll elements).bind fun vs m => ?_
      have hallocate := mirrors_allocate (π := π) m.vectorClass (some vs.toArray) m
      rwa [Option.map_some, List.map_toArray] at hallocate

theorem mirrors_evalAll (es : List (Expr Slot)) :
    Mirrors π (List.map (Value.renumber π)) (Eval.evalAll (n + 1) es)
      (Eval.evalAll (n + 1) es) := by
  cases es with
  | nil =>
      rw [Eval.evalAll]
      exact mirrors_pure []
  | cons e rest =>
      rw [Eval.evalAll]
      exact (ih.eval e).bind fun v => (ih.evalAll rest).bind fun vs => mirrors_pure (v :: vs)

theorem mirrors_call (callee : Value) (vs : List Value) :
    Mirrors π (Value.renumber π) (Eval.call (n + 1) callee vs)
      (Eval.call (n + 1) (callee.renumber π) (vs.map (Value.renumber π))) := by
  cases callee with
  | function id c =>
      rw [Value.renumber, Eval.call, Eval.call]
      refine (mirrors_callEnv c vs).bind fun E => ?_
      exact ((ih.execAll c.declaration.body).within E).bind fun completion =>
        mirrors_callValue c completion
  | native id f =>
      show Mirrors π _ _ (Eval.call (n + 1) (.native id f) _)
      rw [Eval.call, Eval.call]
      exact mirrors_runFunction f vs
  | nativeMethod id f receiver =>
      rw [Value.renumber, Eval.call, Eval.call]
      exact mirrors_runMethod f receiver vs
  | cls c =>
      show Mirrors π _ _ (Eval.call (n + 1) (.cls c) _)
      rw [Eval.call, Eval.call]
      have hempty : (if c.body.isVector then some #[] else none : Option (Array Value)).map
          (fun vs => vs.map (Value.renumber π)) = if c.body.isVector then some #[] else none := by
        split <;> simp
      have hallocate := mirrors_allocate (π := π) c (if c.body.isVector then some #[] else none)
      rw [hempty] at hallocate
      refine hallocate.bind fun o => ?_
      cases c.findMethod? initializerName with
      | none => exact mirrors_pure o
      | some method =>
          exact (mirrors_bindMethod method o).bind fun f => (ih.call f vs).bind fun _ =>
            mirrors_pure o
  | nil | bool | number | text | object | unassigned =>
      exact mirrors_pure Value.nil

theorem mirrors_exec (s : Stmt Slot) :
    Mirrors π (Completion.renumber π) (Eval.exec (n + 1) s) (Eval.exec (n + 1) s) := by
  cases s with
  | expression e =>
      rw [Eval.exec]
      exact (ih.eval e).bind fun v => (mirrors_setLastValue v).bind fun _ =>
        mirrors_pure Completion.normal
  | print e =>
      rw [Eval.exec]
      exact (ih.eval e).bind fun v => (mirrors_textOf v).bind fun text =>
        (mirrors_print text).bind fun _ => mirrors_pure Completion.normal
  | varDecl name initializer =>
      cases initializer with
      | none =>
          rw [Eval.exec]
          exact (mirrors_define name.lexeme .unassigned).bind fun _ =>
            mirrors_pure Completion.normal
      | some e =>
          rw [Eval.exec]
          exact (ih.eval e).bind fun v => (mirrors_define name.lexeme v).bind fun _ =>
            mirrors_pure Completion.normal
  | block body =>
      rw [Eval.exec]
      exact mirrors_environment.bind fun outer => (mirrors_enter "block" outer).bind fun E =>
        (ih.execAll body).within E
  | ifThen c a =>
      rw [Eval.exec]
      refine (ih.eval c).bind fun v => ?_
      rw [Value.truthy_renumber]
      cases v.truthy with
      | true => exact ih.exec a
      | false => exact mirrors_pure Completion.normal
  | ifElse c a b =>
      rw [Eval.exec]
      refine (ih.eval c).bind fun v => ?_
      rw [Value.truthy_renumber]
      cases v.truthy with
      | true => exact ih.exec a
      | false => exact ih.exec b
  | whileLoop c a =>
      rw [Eval.exec]
      exact ih.loop c a
  | function f =>
      rw [Eval.exec]
      refine mirrors_environment.bind fun E => mirrors_freshId_kept.bind fun k => ?_
      exact (mirrors_define f.name.lexeme (.function k ⟨f, E, false⟩)).bind fun _ =>
        mirrors_pure Completion.normal
  | classDecl name superclass methods =>
      rw [Eval.exec]
      exact (mirrors_declareClass name superclass methods).bind fun _ =>
        mirrors_pure Completion.normal
  | ret keyword value =>
      cases value with
      | none =>
          rw [Eval.exec]
          exact mirrors_pure (Completion.returned .nil)
      | some e =>
          rw [Eval.exec]
          exact (ih.eval e).bind fun v => mirrors_pure (Completion.returned v)

theorem mirrors_execAll (body : List (Stmt Slot)) :
    Mirrors π (Completion.renumber π) (Eval.execAll (n + 1) body)
      (Eval.execAll (n + 1) body) := by
  cases body with
  | nil =>
      rw [Eval.execAll]
      exact mirrors_pure Completion.normal
  | cons s rest =>
      rw [Eval.execAll]
      refine (ih.exec s).bind fun completion => ?_
      cases completion with
      | normal => exact ih.execAll rest
      | returned v => exact mirrors_pure (Completion.returned v)

theorem mirrors_loop (c : Expr Slot) (body : Stmt Slot) :
    Mirrors π (Completion.renumber π) (Eval.loop (n + 1) c body)
      (Eval.loop (n + 1) c body) := by
  rw [Eval.loop]
  refine (ih.eval c).bind fun v => ?_
  rw [Value.truthy_renumber]
  cases v.truthy with
  | true =>
      refine (ih.exec body).bind fun completion => ?_
      cases completion with
      | normal => exact ih.loop c body
      | returned v => exact mirrors_pure (Completion.returned v)
  | false => exact mirrors_pure Completion.normal

theorem mirrors_execUnit (program : List (Stmt Slot)) :
    Mirrors π id (Eval.execUnit (n + 1) program) (Eval.execUnit (n + 1) program) := by
  cases program with
  | nil =>
      rw [Eval.execUnit]
      exact mirrors_pure ()
  | cons s rest =>
      rw [Eval.execUnit]
      exact (ih.exec s).bind fun _ => ih.execUnit rest

end

include hπ

theorem mirrorsAll (n : Nat) : MirrorsAll π n := by
  induction n with
  | zero =>
      have hspent {α : Type} (act : α → α) : Mirrors π act spent spent := mirrors_abort .spent
      exact
        { eval := fun e => by rw [Eval.eval]; exact hspent _
          evalAll := fun es => by rw [Eval.evalAll]; exact hspent _
          call := fun f vs => by rw [Eval.call, Eval.call]; exact hspent _
          exec := fun s => by rw [Eval.exec]; exact hspent _
          execAll := fun body => by rw [Eval.execAll]; exact hspent _
          loop := fun c body => by rw [Eval.loop]; exact hspent _
          execUnit := fun program => by rw [Eval.execUnit]; exact hspent _ }
  | succ n ih =>
      exact
        { eval := mirrors_eval hπ ih
          evalAll := mirrors_evalAll ih
          call := mirrors_call ih
          exec := mirrors_exec ih
          execAll := mirrors_execAll ih
          loop := mirrors_loop ih
          execUnit := mirrors_execUnit ih }

end Eval

/-! ## Machines -/

/-- All functions on the machine have numbers that its counter gave them: those that it
will give next may be exchanged for others, and nothing changes. -/
def Machine.Numbered (m : Machine) : Prop :=
  ∀ π : Nat → Nat, Function.Injective π → Fixes π 0 m.nextId → m.renumber π = m

/-- Numbers that were given before a unit are not looked at in it. -/
theorem execUnit_renumber {π : Nat → Nat} (hπ : Function.Injective π) (n : Nat)
    (program : List (Stmt Slot)) {m : Machine} (hfix : ∀ i, m.nextId ≤ i → π i = i) :
    execUnit n program (m.renumber π) = (execUnit n program m).renumber π id :=
  ((mirrorsAll hπ n).execUnit program m).2 fun i hi _ => hfix i hi

theorem Machine.Numbered.execUnit {m : Machine} (h : m.Numbered) (n : Nat)
    (program : List (Stmt Slot)) : (execUnit n program m).machine.Numbered := by
  intro π hπ hfix
  obtain ⟨hgrows, heq⟩ := (mirrorsAll hπ n).execUnit program m
  have hrun := heq (hfix.mono (Nat.zero_le _) (Nat.le_refl _))
  rw [h π hπ (hfix.mono (Nat.le_refl _) hgrows)] at hrun
  exact ((congrArg Result.machine hrun).trans (Result.machine_renumber id _)).symm

end Lox
