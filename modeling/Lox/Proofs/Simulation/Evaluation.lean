import Lox.Proofs.Simulation.Natives

/-!
# Related programs do the same

The simulation of the evaluator. The induction is on the budget, which both runs
share; a case for each form of tree puts the simulations of its parts together in
the order in which the evaluator takes them. The world grows along the way, and what
was related before is related in the later world.
-/

namespace Lox
namespace Comparison

open Eval

variable {C : Comparison} {w : C.World} {m m' : Machine} {n : Nat} {p q : C.Spot}

/-- Related lists of values. -/
abbrev ValuesRel (C : Comparison) (w : C.World) (vs vs' : List Value) : Prop :=
  List.Forall₂ (C.ValueRel w) vs vs'

/-- Statements that complete alike, at the spot after them. One that returns is no
declaration, so that spot is where it began. -/
def EndsAt (C : Comparison) (q : C.Spot) (E E' : Lox.Env) (w : C.World)
    (k k' : Completion) : Prop :=
  C.CompletionRel w k k' ∧ C.Env w q E E'

/-- Everything the evaluator does with a budget of `n`. -/
structure Agrees (C : Comparison) (n : Nat) : Prop where
  eval : ∀ {w m m' p e e'}, C.ExprRel p e e' → C.Env w p m.env m'.env → C.MachineRel w m m' →
    C.Simulates w C.ValueRel (visits n (.eval e)) (eval n e) (eval n e') m m'
  evalAll : ∀ {w m m' p es es'}, C.ExprsRel p es es' → C.Env w p m.env m'.env →
    C.MachineRel w m m' →
    C.Simulates w C.ValuesRel (visits n (.evalAll es)) (evalAll n es) (evalAll n es') m m'
  call : ∀ {w m m' v v' vs vs'}, C.ValueRel w v v' → C.ValuesRel w vs vs' →
    v.arity? = some vs.length → C.MachineRel w m m' →
    C.Simulates w C.ValueRel (visits n (.call v vs)) (Eval.call n v vs) (Eval.call n v' vs') m m'
  exec : ∀ {w m m' p q s s'}, C.StmtRel p s s' q → C.Env w p m.env m'.env →
    C.MachineRel w m m' →
    C.Simulates w (C.EndsAt q m.env m'.env) (visits n (.exec s)) (exec n s) (exec n s') m m'
  execAll : ∀ {w m m' p ss ss'}, C.StmtsRel p ss ss' → C.Env w p m.env m'.env →
    C.MachineRel w m m' →
    C.Simulates w C.CompletionRel (visits n (.execAll ss)) (execAll n ss) (execAll n ss') m m'
  loop : ∀ {w m m' p c c' s s'}, C.ExprRel p c c' → C.StmtRel p s s' p →
    C.Env w p m.env m'.env → C.MachineRel w m m' →
    C.Simulates w C.CompletionRel (visits n (.loop c s)) (loop n c s) (loop n c' s') m m'
  execUnit : ∀ {w m m' p ss ss'}, C.StmtsRel p ss ss' → C.Env w p m.env m'.env →
    C.MachineRel w m m' →
    C.Simulates w anyUnit (visits n (.unit ss)) (execUnit n ss) (execUnit n ss') m m'

theorem eval_agrees (ih : C.Agrees n) {e e' : Expr Slot} (h : C.ExprRel p e e')
    (he : C.Env w p m.env m'.env) (hm : C.MachineRel w m m') :
    C.Simulates w C.ValueRel (visits (n + 1) (.eval e)) (eval (n + 1) e) (eval (n + 1) e')
      m m' := by
  refine Simulates.visits hm (.eval he h) ?_
  cases h with
  | @literal value =>
      rw [eval]
      refine simulates_pure hm ?_
      cases value with
      | nil => exact .nil
      | bool => exact .bool
      | number => exact .number
      | text => exact .text
  | unary ho ha =>
      rw [eval, eval]
      exact (ih.eval ha he hm).map fun w₁ m₁ m₁' v v' hl hv => unaryOp_simulates ho hl.machine hv
  | binary ho ha hb =>
      rw [eval, eval]
      refine (ih.eval ha he hm).bind fun w₁ m₁ m₁' v v' hl _ hv => ?_
      exact (ih.eval hb (hl.spot he) hl.machine).map fun w₂ m₂ m₂' u u' hl₂ hu =>
        binaryOp_simulates ho hl₂.machine (hv.later hl₂.later) hu
  | logical ho ha hb =>
      rw [eval, eval]
      refine (ih.eval ha he hm).bind fun w₁ m₁ m₁' v v' hl _ hv => ?_
      rw [← settles_eq ho hv]
      split
      · next hs => exact Simulates.not_given (simulates_pure hl.machine hv) (by simp [hs])
      · next hs =>
          exact Simulates.given (fun _ => ih.eval hb (hl.spot he) hl.machine) (by simpa using hs)
  | conditional hc ha hb =>
      rw [eval, eval]
      refine (ih.eval hc he hm).bind fun w₁ m₁ m₁' v v' hl _ hv => ?_
      rw [← hv.truthy]
      split
      · exact ih.eval ha (hl.spot he) hl.machine
      · exact ih.eval hb (hl.spot he) hl.machine
  | grouping ha =>
      rw [eval, eval]
      exact ih.eval ha he hm
  | var hr =>
      rw [eval, eval]
      exact lookUp_simulates (.inl rfl) hr he hm
  | assign hr ha =>
      rw [eval, eval]
      refine (ih.eval ha he hm).map fun w₁ m₁ m₁' v v' hl hv => ?_
      exact (assign_simulates hr (hl.spot he) hl.machine hv).map fun w₂ m₂ m₂' _ _ hl₂ _ =>
        simulates_pure hl₂.machine (hv.later hl₂.later)
  | @call paren paren' _ _ _ _ hf ha =>
      rw [eval, eval]
      refine (ih.eval hf he hm).bind fun w₁ m₁ m₁' f f' hl₁ _ hf => ?_
      refine (ih.evalAll ha (hl₁.spot he) hl₁.machine).bind fun w₂ m₂ m₂' vs vs' hl₂ _ hvs => ?_
      have hf₂ := hf.later hl₂.later
      have hcall : C.Simulates w₂ C.ValueRel
          (.after (checkCall f vs.length paren) fun _ =>
            .given (f.arity? = some vs.length) (visits n (.call f vs)))
          (checkCall f vs.length paren >>= fun _ => reporting paren (Eval.call n f vs))
          (checkCall f' vs.length paren' >>= fun _ => reporting paren' (Eval.call n f' vs'))
          m₂ m₂' := by
        refine (checkCall_simulates hl₂.machine hf₂).after fun w₃ m₃ m₃' _ _ hl₃ _ harity => ?_
        refine Simulates.given (fun _ => ?_) harity
        exact (ih.call (hf₂.later hl₃.later) (forall₂_later hvs hl₃.later) harity
          hl₃.machine).reporting
      rw [← hvs.length_eq]
      refine hcall.imp (fun a => ⟨fun ha => ⟨(), m₂, checkCall_ok ha.1, ha⟩, ?_⟩)
        fun _ _ _ _ hR => hR
      rintro ⟨_, m₃, hok, harity, ha⟩
      rw [checkCall_ok harity] at hok
      cases hok
      exact ⟨harity, ha⟩
  | get hn ha =>
      rw [eval, eval]
      exact (ih.eval ha he hm).bind fun w₁ m₁ m₁' v v' hl _ hv =>
        getProperty_simulates hn hl.machine hv
  | set hn ha hb =>
      rw [eval, eval]
      refine (ih.eval ha he hm).bind fun w₁ m₁ m₁' o o' hl₁ _ ho => ?_
      refine (fieldOwner_simulates hl₁.machine ho).after fun w₂ m₂ m₂' ref ref' hl₂ _ heq => ?_
      subst heq
      have hl := hl₁.trans hl₂
      refine (ih.eval hb (hl.spot he) hl₂.machine).map fun w₃ m₃ m₃' v v' hl₃ hv => ?_
      exact (setField_simulates ref hn.lexeme hl₃.machine hv).map fun w₄ m₄ m₄' _ _ hl₄ _ =>
        simulates_pure hl₄.machine (hv.later hl₄.later)
  | thisRef hr =>
      rw [eval, eval]
      exact lookUp_simulates (.inr rfl) hr he hm
  | superRef hn hs =>
      rw [eval, eval]
      exact superMethod_simulates hn hs he hm
  | vector ha =>
      rw [eval, eval]
      refine (ih.evalAll ha he hm).map fun w₁ m₁ m₁' vs vs' hl hvs => ?_
      exact allocate_simulates hl.machine hl.machine.vectorClass (.some hvs)

theorem evalAll_agrees (ih : C.Agrees n) {es es' : List (Expr Slot)} (h : C.ExprsRel p es es')
    (he : C.Env w p m.env m'.env) (hm : C.MachineRel w m m') :
    C.Simulates w C.ValuesRel (visits (n + 1) (.evalAll es)) (evalAll (n + 1) es)
      (evalAll (n + 1) es') m m' := by
  refine Simulates.visits hm (.evalAll he h) ?_
  cases h with
  | nil =>
      rw [evalAll]
      exact simulates_pure hm .nil
  | cons ha has =>
      rw [evalAll, evalAll]
      refine (ih.eval ha he hm).bind fun w₁ m₁ m₁' v v' hl _ hv => ?_
      exact (ih.evalAll has (hl.spot he) hl.machine).map fun w₂ m₂ m₂' vs vs' hl₂ hvs =>
        simulates_pure hl₂.machine (.cons (hv.later hl₂.later) hvs)

theorem call_agrees (ih : C.Agrees n) {v v' : Value} {vs vs' : List Value}
    (hv : C.ValueRel w v v') (hvs : C.ValuesRel w vs vs') (harity : v.arity? = some vs.length)
    (hm : C.MachineRel w m m') :
    C.Simulates w C.ValueRel (visits (n + 1) (.call v vs)) (Eval.call (n + 1) v vs)
      (Eval.call (n + 1) v' vs') m m' := by
  refine Simulates.visits hm (.call hv hvs harity) ?_
  cases hv with
  | @function id c c' hc =>
      rw [Eval.call, Eval.call]
      have hclosure := hc
      obtain ⟨p, he, hf, hi, hr⟩ := hc
      cases hf with
      | @mk _ q _ _ _ hparams hcall hbody =>
          have hlen : vs.length = c.declaration.params.length := by
            simpa [Value.arity?, Closure.arity, eq_comm] using harity
          refine (callEnv_simulates hcall hparams he hm hvs hlen).bind
            fun w₁ m₁ m₁' E E' hl _ hE => ?_
          have hm₁ : C.MachineRel w₁ { m₁ with env := E } { m₁' with env := E' } :=
            hl.machine.at_env E E'
          refine (Simulates.within (ih.execAll hbody hE hm₁)).map fun w₂ m₂ m₂' k k' hl₂ hk => ?_
          exact callValue_simulates (hclosure.later (C.later_trans hl.later hl₂.later))
            hl₂.machine hk
  | native =>
      rw [Eval.call, Eval.call]
      exact runFunction_simulates _ hm hvs
  | nativeMethod hv =>
      rw [Eval.call, Eval.call]
      exact runMethod_simulates _ hm hv hvs
  | @cls c c' hc =>
      rw [Eval.call, Eval.call]
      have helements : Option.Rel
          (fun a a' : Array Value => List.Forall₂ (C.ValueRel w) a.toList a'.toList)
          (if c.body.isVector then some #[] else none)
          (if c'.body.isVector then some #[] else none) := by
        rw [hc.body.isVector]
        split
        · exact .some .nil
        · exact .none
      have hclass : c.arity = vs.length := by simpa [Value.arity?] using harity
      refine Simulates.after (allocate_simulates hm hc helements) fun w₁ m₁ m₁' o o' hl _ ho => ?_
      have hfound := (hc.later hl.later).findMethod? initializerName
      simp only [Class.arity] at hclass
      generalize c.findMethod? initializerName = found at hfound hclass
      generalize c'.findMethod? initializerName = found' at hfound
      cases hfound with
      | none => exact simulates_pure hl.machine ho
      | @some method method' hmethod =>
          refine (bindMethod_simulates n hl.machine hmethod ho).bind
            fun w₂ m₂ m₂' f f' hl₂ hbound hf => ?_
          have hf' : f.arity? = some vs.length := by
            rw [bindMethod_arity hbound, ← hclass]
            rfl
          refine (ih.call hf (forall₂_later hvs (hl.trans hl₂).later) hf' hl₂.machine).map
            fun w₃ m₃ m₃' _ _ hl₃ _ => ?_
          exact simulates_pure hl₃.machine (ho.later (hl₂.trans hl₃).later)
  | nil => cases harity
  | bool => cases harity
  | number => cases harity
  | text => cases harity
  | object => cases harity
  | unassigned => cases harity

theorem exec_agrees (ih : C.Agrees n) {s s' : Stmt Slot} (h : C.StmtRel p s s' q)
    (he : C.Env w p m.env m'.env) (hm : C.MachineRel w m m') :
    C.Simulates w (C.EndsAt q m.env m'.env) (visits (n + 1) (.exec s)) (exec (n + 1) s)
      (exec (n + 1) s') m m' := by
  refine Simulates.visits hm (.exec he h) ?_
  cases h with
  | expression ha =>
      rw [exec, exec]
      refine (ih.eval ha he hm).map fun w₁ m₁ m₁' v v' hl hv => ?_
      exact (setLastValue_simulates v v' hl.machine).map fun w₂ m₂ m₂' _ _ hl₂ _ =>
        simulates_pure hl₂.machine ⟨.normal, C.env_later (hl.trans hl₂).later he⟩
  | print ha =>
      rw [exec, exec]
      refine (ih.eval ha he hm).map fun w₁ m₁ m₁' v v' hl hv => ?_
      refine (textOf_simulates hl.machine hv).map fun w₂ m₂ m₂' text text' hl₂ htext => ?_
      subst htext
      exact (print_simulates text hl₂.machine).map fun w₃ m₃ m₃' _ _ hl₃ _ =>
        simulates_pure hl₃.machine
          ⟨.normal, C.env_later ((hl.trans hl₂).trans hl₃).later he⟩
  | varPlain hd =>
      rw [exec, exec]
      exact (define_simulates hd he hm fun _ _ _ => .unassigned).map fun w₁ m₁ m₁' _ _ hl he₁ =>
        simulates_pure hl.machine ⟨.normal, he₁⟩
  | varDecl hd ha =>
      rw [exec, exec]
      refine (ih.eval ha (C.pending hd he) hm).map fun w₁ m₁ m₁' v v' hl hv => ?_
      refine (define_simulates hd (hl.spot he) hl.machine fun w' hw _ => hv.later hw).map
        fun w₂ m₂ m₂' _ _ hl₂ he₂ => ?_
      exact simulates_pure hl₂.machine ⟨.normal, hl.stay.mpr he₂⟩
  | block hb hbody =>
      rw [exec, exec]
      refine (environment_simulates hm).after fun w₁ m₁ m₁' E E' hl₁ _ hE => ?_
      obtain ⟨rfl, rfl⟩ := hE
      refine (enter_simulates hb (C.env_later hl₁.later he) hl₁.machine).bind
        fun w₂ m₂ m₂' E E' hl₂ _ hE => ?_
      have hm₂ : C.MachineRel w₂ { m₂ with env := E } { m₂' with env := E' } :=
        hl₂.machine.at_env E E'
      exact (Simulates.within (ih.execAll hbody hE hm₂)).imp (fun _ => Iff.rfl)
        fun w₃ k k' hw hk => ⟨hk, C.env_later (C.later_trans (hl₁.trans hl₂).later hw) he⟩
  | ifThen hc ha =>
      rw [exec, exec]
      refine (ih.eval hc he hm).bind fun w₁ m₁ m₁' v v' hl _ hv => ?_
      rw [← hv.truthy]
      split
      · next ht =>
          refine Simulates.given (fun _ => ?_) ht
          exact (ih.exec ha (hl.spot he) hl.machine).imp (fun _ => Iff.rfl)
            fun w₂ k k' _ hk => ⟨hk.1, hl.stay.mpr hk.2⟩
      · next ht =>
          exact Simulates.not_given
            (simulates_pure hl.machine ⟨.normal, C.env_later hl.later he⟩) ht
  | ifElse hc ha hb =>
      rw [exec, exec]
      refine (ih.eval hc he hm).bind fun w₁ m₁ m₁' v v' hl _ hv => ?_
      rw [← hv.truthy]
      split
      · exact (ih.exec ha (hl.spot he) hl.machine).imp (fun _ => Iff.rfl)
          fun w₂ k k' _ hk => ⟨hk.1, hl.stay.mpr hk.2⟩
      · exact (ih.exec hb (hl.spot he) hl.machine).imp (fun _ => Iff.rfl)
          fun w₂ k k' _ hk => ⟨hk.1, hl.stay.mpr hk.2⟩
  | whileLoop hc ha =>
      rw [exec, exec]
      exact (ih.loop hc ha he hm).imp (fun _ => Iff.rfl)
        fun w₁ k k' hw hk => ⟨hk, C.env_later hw he⟩
  | function hd hf =>
      rw [exec, exec]
      refine (environment_simulates hm).map fun w₁ m₁ m₁' E E' hl₁ hE => ?_
      obtain ⟨rfl, rfl⟩ := hE
      refine (freshId_simulates hl₁.machine).map fun w₂ m₂ m₂' id id' hl₂ hid => ?_
      subst hid
      have hl := hl₁.trans hl₂
      refine (define_simulates hd (hl.spot he) hl₂.machine fun w' _ he' => ?_).map
        fun w₃ m₃ m₃' _ _ hl₃ he₃ => simulates_pure hl₃.machine ⟨.normal, hl.stay.mpr he₃⟩
      exact .function ⟨_, hl.stay.mpr he', hf, rfl, fun h => by cases h⟩
  | retPlain =>
      rw [exec, exec]
      exact simulates_pure hm ⟨.returned .nil, he⟩
  | ret ha =>
      rw [exec, exec]
      exact (ih.eval ha he hm).map fun w₁ m₁ m₁' v v' hl hv =>
        simulates_pure hl.machine ⟨.returned hv, C.env_later hl.later he⟩
  | plainClass hn hd hfs =>
      rw [exec, exec]
      exact (declareClass_plain_simulates hn hd hfs he hm).map fun w₁ m₁ m₁' _ _ hl he₁ =>
        simulates_pure hl.machine ⟨.normal, he₁⟩
  | derivedClass hn hd hp hi hfs =>
      rw [exec, exec]
      exact (declareClass_derived_simulates hn hd hp hi hfs he hm).map
        fun w₁ m₁ m₁' _ _ hl he₁ => simulates_pure hl.machine ⟨.normal, he₁⟩

theorem execAll_agrees (ih : C.Agrees n) {ss ss' : List (Stmt Slot)} (h : C.StmtsRel p ss ss')
    (he : C.Env w p m.env m'.env) (hm : C.MachineRel w m m') :
    C.Simulates w C.CompletionRel (visits (n + 1) (.execAll ss)) (execAll (n + 1) ss)
      (execAll (n + 1) ss') m m' := by
  refine Simulates.visits hm (.execAll he h) ?_
  cases h with
  | nil =>
      rw [execAll]
      exact simulates_pure hm .normal
  | cons hs hss =>
      rw [execAll, execAll]
      refine (ih.exec hs he hm).bind fun w₁ m₁ m₁' k k' hl _ hk => ?_
      obtain ⟨hk, hspot⟩ := hk
      cases hk with
      | normal => exact ih.execAll hss (hl.stay.mp hspot) hl.machine
      | returned hv => exact simulates_pure hl.machine (.returned hv)

theorem loop_agrees (ih : C.Agrees n) {c c' : Expr Slot} {s s' : Stmt Slot}
    (hc : C.ExprRel p c c') (hs : C.StmtRel p s s' p) (he : C.Env w p m.env m'.env)
    (hm : C.MachineRel w m m') :
    C.Simulates w C.CompletionRel (visits (n + 1) (.loop c s)) (loop (n + 1) c s)
      (loop (n + 1) c' s') m m' := by
  refine Simulates.visits hm (.loop he hc hs) ?_
  rw [loop, loop]
  refine (ih.eval hc he hm).bind fun w₁ m₁ m₁' v v' hl₁ _ hv => ?_
  rw [← hv.truthy]
  split
  · next ht =>
      refine Simulates.given (fun _ => ?_) ht
      refine (ih.exec hs (hl₁.spot he) hl₁.machine).bind fun w₂ m₂ m₂' k k' hl₂ _ hk => ?_
      obtain ⟨hk, _⟩ := hk
      cases hk with
      | normal => exact ih.loop hc hs ((hl₁.trans hl₂).spot he) hl₂.machine
      | returned hv => exact simulates_pure hl₂.machine (.returned hv)
  · next ht => exact Simulates.not_given (simulates_pure hl₁.machine .normal) ht

theorem execUnit_agrees (ih : C.Agrees n) {ss ss' : List (Stmt Slot)} (h : C.StmtsRel p ss ss')
    (he : C.Env w p m.env m'.env) (hm : C.MachineRel w m m') :
    C.Simulates w anyUnit (visits (n + 1) (.unit ss)) (execUnit (n + 1) ss)
      (execUnit (n + 1) ss') m m' := by
  refine Simulates.visits hm (.unit he h) ?_
  cases h with
  | nil =>
      rw [execUnit]
      exact simulates_pure hm trivial
  | cons hs hss =>
      rw [execUnit, execUnit]
      refine (ih.exec hs he hm).bind fun w₁ m₁ m₁' k k' hl _ hk => ?_
      exact ih.execUnit hss (hl.stay.mp hk.2) hl.machine

/-- Related programs do the same, whatever the budget. -/
theorem agrees (C : Comparison) (n : Nat) : C.Agrees n := by
  induction n with
  | zero =>
      constructor
      · intro _ _ _ _ _ _ h he hm
        rw [eval, eval]
        exact simulates_spent hm (.eval he h)
      · intro _ _ _ _ _ _ h he hm
        rw [evalAll, evalAll]
        exact simulates_spent hm (.evalAll he h)
      · intro _ _ _ _ _ _ _ hv hvs harity hm
        rw [Eval.call, Eval.call]
        exact simulates_spent hm (.call hv hvs harity)
      · intro _ _ _ _ _ _ _ h he hm
        rw [exec, exec]
        exact simulates_spent hm (.exec he h)
      · intro _ _ _ _ _ _ h he hm
        rw [execAll, execAll]
        exact simulates_spent hm (.execAll he h)
      · intro _ _ _ _ _ _ _ _ hc hs he hm
        rw [loop, loop]
        exact simulates_spent hm (.loop he hc hs)
      · intro _ _ _ _ _ _ h he hm
        rw [execUnit, execUnit]
        exact simulates_spent hm (.unit he h)
  | succ n ih =>
      exact
        { eval := eval_agrees ih
          evalAll := evalAll_agrees ih
          call := call_agrees ih
          exec := exec_agrees ih
          execAll := execAll_agrees ih
          loop := loop_agrees ih
          execUnit := execUnit_agrees ih }

end Comparison
end Lox
