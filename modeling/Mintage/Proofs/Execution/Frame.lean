import Mathlib.Tactic.Tauto
import Mintage.Proofs.Execution.Call

/-! Code that leaves the tokens and the counters of a contract alone: it calls only functions of
which that is known. -/
namespace Mintage.Solidity

/-- The second store has the tokens and the counters of the first. -/
structure Store.Keeps (store store' : Store) : Prop where
  tokens : store'.tokens = store.tokens
  counters : store'.counters = store.counters

namespace Store.Keeps

theorem refl (store : Store) : store.Keeps store := ⟨rfl, rfl⟩

theorem trans {a b c : Store} (ab : a.Keeps b) (bc : b.Keeps c) : a.Keeps c :=
  ⟨bc.tokens.trans ab.tokens, bc.counters.trans ab.counters⟩

end Store.Keeps

/-- An effect that never changes the tokens and the counters. -/
def Effect.Quiet (effect : Effect) : Prop :=
  ∀ store value store', effect store = some (value, store') → store.Keeps store'

/-- The functions that every contract knows and that change nothing. -/
def builtins : List String := ["revert", "payable", "require"] ++ Scope.conversions

mutual

/-- Whether an expression calls by name only the functions `silent`. -/
def Expr.isQuiet (silent : List String) : Expr → Bool
  | .member object _ => object.isQuiet silent
  | .index object key => object.isQuiet silent && key.isQuiet silent
  | .call (.ident function) arguments =>
    (builtins.contains function || silent.contains function) && Expr.allQuiet silent arguments
  | .call (.member (.ident object) function) arguments =>
    object != "super" && function != "increment" && Expr.allQuiet silent arguments
  | .assign target _ value => target.isQuiet silent && value.isQuiet silent
  | .binary left _ right => left.isQuiet silent && right.isQuiet silent
  | _ => true

def Expr.allQuiet (silent : List String) : List Expr → Bool
  | [] => true
  | e :: es => e.isQuiet silent && Expr.allQuiet silent es

end

mutual

/-- Whether a statement calls by name only the functions `silent`. -/
def Stmt.isQuiet (silent : List String) : Stmt → Bool
  | .expr e => e.isQuiet silent
  | .decl v => v.value.all (·.isQuiet silent)
  | .ret value => value.all (·.isQuiet silent)
  | .cond test body alternative =>
    test.isQuiet silent && Stmt.allQuiet silent body && Stmt.alternativeQuiet silent alternative
  | .loop _ _ _ body => Stmt.allQuiet silent body

def Stmt.allQuiet (silent : List String) : List Stmt → Bool
  | [] => true
  | s :: ss => s.isQuiet silent && Stmt.allQuiet silent ss

def Stmt.alternativeQuiet (silent : List String) : Option (List Stmt) → Bool
  | none => true
  | some ss => Stmt.allQuiet silent ss

end

theorem Stmt.allQuiet_eq_all (silent : List String) (ss : List Stmt) :
    Stmt.allQuiet silent ss = ss.all (·.isQuiet silent) := by
  induction ss with
  | nil => rfl
  | cons s ss ih => simp [Stmt.allQuiet, ih]

mutual

/-- Whether the next statement follows, with the same locals. -/
def Stmt.isSteady : Stmt → Bool
  | .expr _ => true
  | .cond _ body alternative => Stmt.allSteady body && Stmt.alternativeSteady alternative
  | _ => false

def Stmt.allSteady : List Stmt → Bool
  | [] => true
  | s :: ss => s.isSteady && Stmt.allSteady ss

def Stmt.alternativeSteady : Option (List Stmt) → Bool
  | none => true
  | some ss => Stmt.allSteady ss

end

theorem Stmt.allSteady_eq_all (ss : List Stmt) : Stmt.allSteady ss = ss.all Stmt.isSteady := by
  induction ss with
  | nil => rfl
  | cons s ss ih => simp [Stmt.allSteady, ih]

namespace Scope

variable {scope : Scope}

/-- The functions of the scope with these names change nothing. -/
def Silences (scope : Scope) (silent : List String) : Prop :=
  ∀ name ∈ silent, ∀ values, Effect.Quiet (scope.call name values)

/-- Checks and conversions change nothing, and silent functions are silent by assumption. -/
theorem apply_quiet {silent : List String} (silences : scope.Silences silent) {function : String}
    (known : function = "require" ∨ function ∈ conversions ∨ function ∈ silent)
    (values : List Value) :
    Effect.Quiet (scope.apply function values) := by
  intro store value store' run
  unfold apply at run
  split at run
  · split at run
    · cases run
      exact .refl _
    · cases run
  split at run
  · obtain ⟨argument, -, same⟩ := Option.map_eq_some_iff.1 run
    cases same
    exact .refl _
  · rename_i notRequire notConversion
    have isSilent : function ∈ silent := by tauto
    exact silences function isSilent values _ _ _ run

/-- Of the functions of objects, only counting and those of the base can change tokens and
counters. -/
theorem applyMember_quiet {object function : String} (notSuper : object ≠ "super")
    (notIncrement : function ≠ "increment") (values : List Value) :
    Effect.Quiet (scope.applyMember object function values) := by
  intro store value store' run
  simp only [applyMember, if_neg notSuper, if_neg notIncrement] at run
  split at run
  · unfold Store.send at run
    split at run
    · split at run
      · cases run
        exact ⟨rfl, rfl⟩
      · cases run
    · cases run
  split at run
  · split at run
    · cases run
      exact .refl _
    · cases run
  split at run
  · cases run
    exact .refl _
  split at run
  · cases run
    exact ⟨rfl, rfl⟩
  · cases run

end Scope

/-- Variables and entries are neither tokens nor counters. -/
theorem Place.keeps_of_assign {place : Place} {operator : String} {value : Value}
    {store store' : Store} (assigned : place.assign? operator value store = some store') :
    store.Keeps store' := by
  have updates (value : Value) : store.Keeps (place.update value store) := by
    cases place <;> exact ⟨rfl, rfl⟩
  unfold assign? at assigned
  split at assigned
  · cases assigned
    exact updates value
  split at assigned
  · obtain ⟨sum, -, same⟩ := Option.map_eq_some_iff.1 assigned
    cases same
    exact updates sum
  · cases assigned

section

variable {scope : Scope} {silent : List String} {locals : Locals}

mutual

/-- Evaluation keeps tokens and counters if all calls in the expression do. The induction is on the
expression, together with its lists and places. -/
theorem Expr.eval_quiet (silences : scope.Silences silent) (e : Expr) (quiet : e.isQuiet silent) :
    Effect.Quiet (e.eval scope locals) := by
  intro store value store' run
  match e with
  | .ident text =>
    obtain ⟨_, -, same⟩ := Option.map_eq_some_iff.1 run
    cases same
    exact .refl _
  | .number digits =>
    obtain ⟨_, -, same⟩ := Option.map_eq_some_iff.1 run
    cases same
    exact .refl _
  | .string s => cases run; exact .refl _
  | .bool b => cases run; exact .refl _
  | .member object name =>
    simp only [Expr.eval, Option.bind_eq_bind, Option.bind_eq_some_iff, Prod.exists] at run
    obtain ⟨value, between, runs, part, -, same⟩ := run
    cases same
    exact Expr.eval_quiet silences object quiet _ _ _ runs
  | .index object key =>
    rw [Expr.isQuiet, Bool.and_eq_true] at quiet
    simp only [Expr.eval, Option.bind_eq_bind, Option.bind_eq_some_iff, Prod.exists] at run
    obtain ⟨value, between, runs, picked⟩ := run
    have kept := Expr.eval_quiet silences key quiet.2 _ _ _ runs
    cases value with
    | number k =>
      simp only at picked
      split at picked
      · obtain ⟨element, -, same⟩ := Option.bind_eq_some_iff.1 picked
        cases same
        exact kept
      · cases picked
    | _ => cases picked
  | .call callee arguments =>
    cases callee with
    | ident function =>
      rw [Expr.isQuiet, Bool.and_eq_true] at quiet
      obtain ⟨known, quiet⟩ := quiet
      simp only [Expr.eval] at run
      split at run
      · cases run
      split at run
      · obtain ⟨account, -, same⟩ := Option.map_eq_some_iff.1 run
        cases same
        exact .refl _
      rename_i notRevert notPayable
      simp only [Option.bind_eq_bind, Option.bind_eq_some_iff, Prod.exists] at run
      obtain ⟨values, between, runs, applied⟩ := run
      -- `revert` has failed and `payable` has answered, so only the other builtins are left.
      have called : function = "require" ∨ function ∈ Scope.conversions ∨ function ∈ silent := by
        simpa [builtins, notRevert, notPayable, or_assoc] using known
      exact (Expr.evalAll_quiet silences arguments quiet runs).trans
        (Scope.apply_quiet silences called values _ _ _ applied)
    | member object function =>
      cases object with
      | ident object =>
        simp only [Expr.isQuiet, Bool.and_eq_true, bne_iff_ne, ne_eq] at quiet
        obtain ⟨⟨notSuper, notIncrement⟩, quiet⟩ := quiet
        simp only [Expr.eval, Option.bind_eq_bind] at run
        split at run
        · simp only [Option.bind_eq_some_iff, Prod.exists] at run
          obtain ⟨s, between, runs, same⟩ := run
          cases same
          exact Expr.pack_quiet silences arguments quiet runs
        · simp only [Option.bind_eq_some_iff, Prod.exists] at run
          obtain ⟨values, between, runs, applied⟩ := run
          exact (Expr.evalAll_quiet silences arguments quiet runs).trans
            (Scope.applyMember_quiet notSuper notIncrement values _ _ _ applied)
      | _ => cases run
    | _ => cases run
  | .assign target operator value =>
    rw [Expr.isQuiet, Bool.and_eq_true] at quiet
    simp only [Expr.eval, Option.bind_eq_bind, Option.bind_eq_some_iff, Prod.exists] at run
    obtain ⟨assigned, first, evaluated, place, second, placed, third, changed, same⟩ := run
    cases same
    exact ((Expr.eval_quiet silences value quiet.2 _ _ _ evaluated).trans
      (Expr.place_quiet silences target quiet.1 placed)).trans (Place.keeps_of_assign changed)
  | .binary left operator right =>
    rw [Expr.isQuiet, Bool.and_eq_true] at quiet
    simp only [Expr.eval, Option.bind_eq_bind, Option.bind_eq_some_iff, Prod.exists] at run
    obtain ⟨a, first, runsLeft, b, second, runsRight, result, -, same⟩ := run
    cases same
    exact (Expr.eval_quiet silences left quiet.1 _ _ _ runsLeft).trans
      (Expr.eval_quiet silences right quiet.2 _ _ _ runsRight)
  | .callNamed _ _ => cases run

theorem Expr.evalAll_quiet (silences : scope.Silences silent) (es : List Expr)
    (quiet : Expr.allQuiet silent es) {store store' : Store} {values : List Value}
    (run : Expr.evalAll scope locals es store = some (values, store')) : store.Keeps store' := by
  match es with
  | [] => cases run; exact .refl _
  | e :: es =>
    simp only [Expr.evalAll, Option.bind_eq_bind, Option.bind_eq_some_iff, Prod.exists] at run
    obtain ⟨value, between, first, values, after, rest, same⟩ := run
    cases same
    rw [Expr.allQuiet, Bool.and_eq_true] at quiet
    exact (Expr.eval_quiet silences e quiet.1 _ _ _ first).trans
      (Expr.evalAll_quiet silences es quiet.2 rest)

theorem Expr.pack_quiet (silences : scope.Silences silent) (es : List Expr)
    (quiet : Expr.allQuiet silent es) {store store' : Store} {s : String}
    (run : Expr.pack scope locals es store = some (s, store')) : store.Keeps store' := by
  match es with
  | [] => cases run; exact .refl _
  | e :: es =>
    rw [Expr.allQuiet, Bool.and_eq_true] at quiet
    simp only [Expr.pack, Option.bind_eq_bind, Option.bind_eq_some_iff, Prod.exists] at run
    obtain ⟨value, between, first, packed⟩ := run
    have kept : store.Keeps between := by
      split at first
      · split at first
        · cases first
          exact .refl _
        · cases first
      · exact Expr.eval_quiet silences e quiet.1 _ _ _ first
    cases value with
    | text s =>
      simp only [Option.bind_eq_some_iff, Prod.exists] at packed
      obtain ⟨rest, after, runs, same⟩ := packed
      cases same
      exact kept.trans (Expr.pack_quiet silences es quiet.2 runs)
    | _ => cases packed

theorem Expr.place_quiet (silences : scope.Silences silent) (e : Expr)
    (quiet : e.isQuiet silent) {store store' : Store} {place : Place}
    (run : e.place scope locals store = some (place, store')) : store.Keeps store' := by
  match e with
  | .ident name => cases run; exact .refl _
  | .index object key =>
    rw [Expr.isQuiet, Bool.and_eq_true] at quiet
    simp only [Expr.place, Option.bind_eq_bind, Option.bind_eq_some_iff, Prod.exists] at run
    obtain ⟨value, between, runs, picked⟩ := run
    have kept := Expr.eval_quiet silences key quiet.2 _ _ _ runs
    cases value with
    | number k =>
      simp only at picked
      split at picked
      · cases picked
        exact kept
      · cases picked
    | _ => cases picked
  | .number _ | .string _ | .bool _ | .member _ _ | .call _ _ | .callNamed _ _ | .assign _ _ _
  | .binary _ _ _ => cases run

end

/-- A loop keeps what each of its rounds keeps. -/
theorem keeps_of_rounds {round : Nat → Store → Option (Flow × Store)}
    (quiet : ∀ k store flow store', round k store = some (flow, store') → store.Keeps store')
    {first count : Nat} {store store' : Store} {flow : Flow}
    (run : rounds round locals first count store = some (flow, store')) : store.Keeps store' := by
  induction count generalizing first store with
  | zero => cases run; exact .refl _
  | succ count ih =>
    unfold rounds at run
    split at run
    · rename_i next between here
      exact (quiet _ _ _ _ here).trans (ih run)
    · exact quiet _ _ _ _ run

mutual

/-- Execution keeps tokens and counters if all calls in the statement do. -/
theorem Stmt.exec_quiet (silences : scope.Silences silent) (s : Stmt) (quiet : s.isQuiet silent)
    {locals : Locals} {store store' : Store} {flow : Flow}
    (run : s.exec scope locals store = some (flow, store')) : store.Keeps store' := by
  match s with
  | .expr e =>
    simp only [Stmt.exec, Option.bind_eq_bind, Option.bind_eq_some_iff, Prod.exists] at run
    obtain ⟨value, after, runs, same⟩ := run
    cases same
    exact Expr.eval_quiet silences e quiet _ _ _ runs
  | .decl v =>
    simp only [Stmt.exec, Option.bind_eq_bind, Option.bind_eq_some_iff, Prod.exists] at run
    obtain ⟨e, held, value, after, runs, same⟩ := run
    cases same
    rw [Stmt.isQuiet, held] at quiet
    exact Expr.eval_quiet silences e quiet _ _ _ runs
  | .ret none => cases run; exact .refl _
  | .ret (some e) =>
    simp only [Stmt.exec, Option.bind_eq_bind, Option.bind_eq_some_iff, Prod.exists] at run
    obtain ⟨value, after, runs, same⟩ := run
    cases same
    exact Expr.eval_quiet silences e quiet _ _ _ runs
  | .cond test body alternative =>
    simp only [Stmt.isQuiet, Bool.and_eq_true] at quiet
    obtain ⟨⟨quietTest, quietBody⟩, quietAlternative⟩ := quiet
    simp only [Stmt.exec, Option.bind_eq_bind, Option.bind_eq_some_iff, Prod.exists] at run
    obtain ⟨value, between, tested, run⟩ := run
    have kept := Expr.eval_quiet silences test quietTest _ _ _ tested
    cases value with
    | truth passed =>
      cases passed with
      | true =>
        obtain ⟨⟨flow, after⟩, chosen, same⟩ := Option.bind_eq_some_iff.1 run
        cases same
        exact kept.trans (Stmt.execAll_quiet silences body quietBody chosen)
      | false =>
        obtain ⟨⟨flow, after⟩, chosen, same⟩ := Option.bind_eq_some_iff.1 run
        cases same
        exact kept.trans (Stmt.execAlternative_quiet silences alternative quietAlternative chosen)
    | _ => cases run
  | .loop start test step body =>
    simp only [Stmt.exec, Option.bind_eq_bind, Option.bind_eq_some_iff, Prod.exists] at run
    obtain ⟨i, n, -, value, -, run⟩ := run
    cases value with
    | number count =>
      exact keeps_of_rounds (fun _ _ _ _ runs => Stmt.execAll_quiet silences body quiet runs) run
    | _ => cases run

theorem Stmt.execAll_quiet (silences : scope.Silences silent) (ss : List Stmt)
    (quiet : Stmt.allQuiet silent ss) {locals : Locals} {store store' : Store} {flow : Flow}
    (run : Stmt.execAll scope ss locals store = some (flow, store')) : store.Keeps store' := by
  match ss with
  | [] => cases run; exact .refl _
  | s :: ss =>
    rw [Stmt.allQuiet, Bool.and_eq_true] at quiet
    simp only [Stmt.execAll] at run
    split at run
    · rename_i next between here
      exact (Stmt.exec_quiet silences s quiet.1 here).trans
        (Stmt.execAll_quiet silences ss quiet.2 run)
    · exact Stmt.exec_quiet silences s quiet.1 run

theorem Stmt.execAlternative_quiet (silences : scope.Silences silent)
    (alternative : Option (List Stmt)) (quiet : Stmt.alternativeQuiet silent alternative)
    {locals : Locals} {store store' : Store} {flow : Flow}
    (run : Stmt.execAlternative scope alternative locals store = some (flow, store')) :
    store.Keeps store' := by
  match alternative with
  | none => cases run; exact .refl _
  | some ss => exact Stmt.execAll_quiet silences ss quiet run

end

mutual

/-- A steady statement does not return and declares nothing, so the next one finds the same
locals. -/
theorem Stmt.exec_steady (s : Stmt) (steady : s.isSteady) {locals : Locals}
    {store store' : Store} {flow : Flow} (run : s.exec scope locals store = some (flow, store')) :
    flow = .next locals := by
  match s with
  | .expr e =>
    simp only [Stmt.exec, Option.bind_eq_bind, Option.bind_eq_some_iff, Prod.exists] at run
    obtain ⟨value, after, -, same⟩ := run
    cases same
    rfl
  | .cond test body alternative =>
    rw [Stmt.isSteady, Bool.and_eq_true] at steady
    simp only [Stmt.exec, Option.bind_eq_bind, Option.bind_eq_some_iff, Prod.exists] at run
    obtain ⟨value, between, -, run⟩ := run
    cases value with
    | truth passed =>
      cases passed with
      | true =>
        obtain ⟨⟨flow, after⟩, chosen, same⟩ := Option.bind_eq_some_iff.1 run
        cases same
        rw [Stmt.execAll_steady body steady.1 chosen]
        rfl
      | false =>
        obtain ⟨⟨flow, after⟩, chosen, same⟩ := Option.bind_eq_some_iff.1 run
        cases same
        rw [Stmt.execAlternative_steady alternative steady.2 chosen]
        rfl
    | _ => cases run

theorem Stmt.execAll_steady (ss : List Stmt) (steady : Stmt.allSteady ss) {locals : Locals}
    {store store' : Store} {flow : Flow}
    (run : Stmt.execAll scope ss locals store = some (flow, store')) : flow = .next locals := by
  match ss with
  | [] => cases run; rfl
  | s :: ss =>
    rw [Stmt.allSteady, Bool.and_eq_true] at steady
    simp only [Stmt.execAll] at run
    split at run
    · rename_i next between here
      have same := Stmt.exec_steady s steady.1 here
      cases same
      exact Stmt.execAll_steady ss steady.2 run
    · rename_i ended
      have same := Stmt.exec_steady s steady.1 run
      exact absurd (same ▸ run) (ended _ _)

theorem Stmt.execAlternative_steady (alternative : Option (List Stmt))
    (steady : Stmt.alternativeSteady alternative) {locals : Locals} {store store' : Store}
    {flow : Flow}
    (run : Stmt.execAlternative scope alternative locals store = some (flow, store')) :
    flow = .next locals := by
  match alternative with
  | none => cases run; rfl
  | some ss => exact Stmt.execAll_steady ss steady run

end

end

namespace Contract

variable (c : Contract) (message : Message)

/-- The functions of the base leave tokens and counters alone, but for those that mint. The address
of a token is not asked for by any code this is used on. -/
theorem inherited_quiet (call : String → List Value → Effect) {name : String}
    (other : name ∉ ["_mint", "_safeMint", "tokenURI"]) (values : List Value) :
    Effect.Quiet (c.inherited message call name values) := by
  intro store value store' run
  unfold inherited at run
  split at run
  · exact absurd (by simp) other
  · exact absurd (by simp) other
  · split at run
    · cases run
      exact .refl _
    · cases run
  · cases run; exact .refl _
  · cases run; exact .refl _
  · cases run; exact .refl _
  · cases run; exact .refl _
  · exact absurd (by simp) other
  · cases run

/-- Functions whose code calls none but each other leave the tokens and the counters alone. -/
theorem invoke_quiet {silent : List String}
    (bodies : ∀ name ∈ silent, ∀ f, c.function? name = some f → Stmt.allQuiet silent f.body)
    (others : ∀ name ∈ silent, name ∉ ["_mint", "_safeMint", "tokenURI"]) (depth : Nat) :
    ∀ name ∈ silent, ∀ values, Effect.Quiet (c.invoke message depth name values) := by
  induction depth with
  | zero =>
    intro name mem values store value store' run
    cases run
  | succ depth ih =>
    intro name mem values store value store' run
    have silences : (c.scope message (c.invoke message depth)).Silences silent := ih
    cases found : c.function? name with
    | none =>
      rw [c.invoke_of_inherited found] at run
      exact c.inherited_quiet message _ (others name mem) values _ _ _ run
    | some f =>
      rw [c.invoke_of_function? found] at run
      simp only [perform, Option.bind_eq_bind, Option.bind_eq_some_iff, Prod.exists] at run
      obtain ⟨locals, -, flow, after, runs, same⟩ := run
      cases same
      exact Stmt.execAll_quiet silences f.body (bodies name mem f found) runs

end Contract

end Mintage.Solidity
