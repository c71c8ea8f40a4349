import Mintage.Proofs.Execution.Frame

/-! What is known after statements that come to an end. Nothing is said of those that fail. -/
namespace Mintage.Solidity

namespace Expr

variable {scope : Scope} {locals : Locals} {store : Store} {name : String}

theorem eval_local (single : Text.words name = [name]) {value : Value}
    (bound : locals.lookup name = some value) :
    (ident name).eval scope locals store = some (value, store) := by
  simp [eval, Scope.read, Scope.named, single, bound]

theorem eval_constant (single : Text.words name = [name]) (unbound : locals.lookup name = none)
    (plain : name ∉ ["msg.sender", "msg.value", "this"]) {e : Expr}
    (constant : scope.constants.lookup name = some e) {value : Value}
    (literal : e.literal? = some value) :
    (ident name).eval scope locals store = some (value, store) := by
  simp only [List.mem_cons, List.not_mem_nil, or_false, not_or] at plain
  simp [eval, Scope.read, Scope.named, single, unbound, plain, constant, literal]

theorem eval_field (single : Text.words name = [name]) (unbound : locals.lookup name = none)
    (plain : name ∉ ["msg.sender", "msg.value", "this"])
    (varies : scope.constants.lookup name = none) :
    (ident name).eval scope locals store = some (store.fields name, store) := by
  simp only [List.mem_cons, List.not_mem_nil, or_false, not_or] at plain
  simp [eval, Scope.read, Scope.named, single, unbound, plain, varies]

theorem eval_entry {map : String} (unbound : locals.lookup map = none) {key : Expr} {k : Nat}
    (number : key.eval scope locals store = some (.number k, store)) :
    (index (ident map) key).eval scope locals store = some (store.entries map k, store) := by
  simp [eval, number, Store.element, unbound]

theorem evalAll_cons {e : Expr} {es : List Expr} {first second : Store} {value : Value}
    {values : List Value} (head : e.eval scope locals store = some (value, first))
    (tail : evalAll scope locals es first = some (values, second)) :
    evalAll scope locals (e :: es) store = some (value :: values, second) := by
  simp [evalAll, head, tail]

/-- The call of a function that has a name, on the values of its arguments. -/
theorem eval_apply {function : String} (plain : function ∉ ["revert", "payable"])
    {arguments : List Expr} {values : List Value} {first : Store}
    (evaluated : evalAll scope locals arguments store = some (values, first)) :
    (apply function arguments).eval scope locals store = scope.apply function values first := by
  simp only [List.mem_cons, List.not_mem_nil, or_false, not_or] at plain
  simp [apply, eval, plain, evaluated]

theorem eval_nat (n : Nat) : (nat n).eval scope locals store = some (.number n, store) := by
  simp [nat, eval]

/-- An operation on the values of its operands. -/
theorem eval_binary {first second : Store} {left right : Expr} {a b : Value} (operator : String)
    (evalLeft : left.eval scope locals store = some (a, first))
    (evalRight : right.eval scope locals first = some (b, second)) :
    (binary left operator right).eval scope locals store =
      (a.combine? operator b).map (·, second) := by
  simp only [eval, evalLeft, evalRight, Option.bind_eq_bind, Option.bind_some]
  cases a.combine? operator b <;> rfl

/-- An operation with a result had operands with values. -/
theorem of_eval_binary {store' : Store} {left right : Expr} {operator : String} {value : Value}
    (run : (binary left operator right).eval scope locals store = some (value, store')) :
    ∃ a first b, left.eval scope locals store = some (a, first) ∧
      right.eval scope locals first = some (b, store') ∧ a.combine? operator b = some value := by
  simp only [eval, Option.bind_eq_bind, Option.bind_eq_some_iff, Prod.exists] at run
  obtain ⟨a, first, evalLeft, b, second, evalRight, result, combined, same⟩ := run
  cases same
  exact ⟨a, first, b, evalLeft, evalRight, combined⟩

/-- Unless it fails, the expression has this number as its value and changes nothing. -/
def Yields (scope : Scope) (locals : Locals) (store : Store) (e : Expr) (n : Nat) : Prop :=
  ∀ value store', e.eval scope locals store = some (value, store') →
    value = .number n ∧ store' = store

theorem yields_of_eval {e : Expr} {n : Nat}
    (number : e.eval scope locals store = some (.number n, store)) :
    e.Yields scope locals store n := by
  intro value store' run
  rw [number] at run
  cases run
  exact ⟨rfl, rfl⟩

/-- An operation on numbers yields its result if it can have no other. -/
theorem Yields.binary {left right : Expr} {a b n : Nat} {operator : String}
    (yieldsLeft : left.Yields scope locals store a)
    (yieldsRight : right.Yields scope locals store b)
    (result : ∀ value, arithmetic operator a b = some value → value = .number n) :
    (Expr.binary left operator right).Yields scope locals store n := by
  intro value store' run
  obtain ⟨v, first, w, evalLeft, evalRight, combined⟩ := of_eval_binary run
  obtain ⟨rfl, rfl⟩ := yieldsLeft v first evalLeft
  obtain ⟨rfl, rfl⟩ := yieldsRight w store' evalRight
  exact ⟨result value combined, rfl⟩

end Expr

namespace Stmt

variable {scope : Scope} {ss : List Stmt} {locals : Locals} {store : Store}

/-- If the statements come to an end, the next one follows, and what is asked for holds. -/
def Leads (scope : Scope) (ss : List Stmt) (locals : Locals) (store : Store)
    (post : Locals → Store → Prop) : Prop :=
  ∀ flow store', execAll scope ss locals store = some (flow, store') →
    ∃ locals', flow = .next locals' ∧ post locals' store'

/-- The rest is executed where the first statements neither fail nor return. -/
theorem execAll_append (ss more : List Stmt) (locals : Locals) (store : Store) :
    execAll scope (ss ++ more) locals store =
      match execAll scope ss locals store with
      | some (.next locals, store) => execAll scope more locals store
      | ended => ended := by
  induction ss generalizing locals store with
  | nil => rfl
  | cons s ss ih =>
    simp only [List.cons_append, execAll]
    split
    · exact ih _ _
    · split
      · rename_i ended _ _ _ run
        exact absurd run (ended _ _)
      · rfl

theorem execAll_singleton (s : Stmt) (locals : Locals) (store : Store) :
    execAll scope [s] locals store = s.exec scope locals store := by
  unfold execAll
  split
  · rename_i run
    rw [run]
    rfl
  · rfl

theorem exec_cond {test : Expr} {passed : Bool} {first : Store} {body : List Stmt}
    {alternative : Option (List Stmt)}
    (tested : test.eval scope locals store = some (.truth passed, first)) :
    (cond test body alternative).exec scope locals store =
      (if passed then execAll scope body locals first
        else execAlternative scope alternative locals first).map
          fun ended => (ended.1.leave locals, ended.2) := by
  simp only [exec, tested, Option.bind_eq_bind, Option.bind_some]
  cases passed
  · exact (Option.map_eq_bind ..).symm
  · exact (Option.map_eq_bind ..).symm

theorem leads_nil {post : Locals → Store → Prop} (holds : post locals store) :
    Leads scope [] locals store post := by
  intro flow store' run
  cases run
  exact ⟨locals, rfl, holds⟩

/-- What holds behind the first statements is assumed in front of the next ones. -/
theorem Leads.append {more : List Stmt} {mid post : Locals → Store → Prop}
    (first : Leads scope ss locals store mid)
    (next : ∀ locals' store', mid locals' store' → Leads scope more locals' store' post) :
    Leads scope (ss ++ more) locals store post := by
  intro flow store' run
  rw [execAll_append] at run
  split at run
  · rename_i flowLocals between here
    obtain ⟨locals', same, holds⟩ := first _ _ here
    cases same
    exact next _ _ holds _ _ run
  · rename_i ended
    obtain ⟨locals', same, holds⟩ := first _ _ run
    exact absurd (same ▸ run) (ended _ _)

theorem Leads.cons {stmt : Stmt} {more : List Stmt} {mid post : Locals → Store → Prop}
    (first : Leads scope [stmt] locals store mid)
    (next : ∀ locals' store', mid locals' store' → Leads scope more locals' store' post) :
    Leads scope (stmt :: more) locals store post := first.append next

theorem Leads.mono {mid post : Locals → Store → Prop} (first : Leads scope ss locals store mid)
    (weaker : ∀ locals' store', mid locals' store' → post locals' store') :
    Leads scope ss locals store post := by
  intro flow store' run
  obtain ⟨locals', same, holds⟩ := first flow store' run
  exact ⟨locals', same, weaker _ _ holds⟩

theorem Leads.and {post post' : Locals → Store → Prop} (first : Leads scope ss locals store post)
    (second : Leads scope ss locals store post') :
    Leads scope ss locals store fun locals' store' =>
      post locals' store' ∧ post' locals' store' := by
  intro flow store' run
  obtain ⟨locals', same, holds⟩ := first flow store' run
  obtain ⟨locals'', same', holds'⟩ := second flow store' run
  cases same.symm.trans same'
  exact ⟨locals', same, holds, holds'⟩

/-- Quiet and steady statements leave locals, tokens and counters alone. -/
theorem leads_steady {silent : List String} (silences : scope.Silences silent)
    (quiet : allQuiet silent ss) (steady : allSteady ss) :
    Leads scope ss locals store fun locals' store' => locals' = locals ∧ store.Keeps store' := by
  intro flow store' run
  exact ⟨locals, execAll_steady ss steady run, rfl, execAll_quiet silences ss quiet run⟩

theorem leads_expr {e : Expr} {post : Locals → Store → Prop}
    (holds : ∀ value store', e.eval scope locals store = some (value, store') →
      post locals store') :
    Leads scope [expr e] locals store post := by
  intro flow store' run
  rw [execAll_singleton] at run
  simp only [exec, Option.bind_eq_bind, Option.bind_eq_some_iff, Prod.exists] at run
  obtain ⟨value, after, runs, same⟩ := run
  cases same
  exact ⟨locals, rfl, holds _ _ runs⟩

theorem leads_assign {target e : Expr} {operator : String} {post : Locals → Store → Prop}
    (holds : ∀ value first place second after, e.eval scope locals store = some (value, first) →
      target.place scope locals first = some (place, second) →
      place.assign? operator value second = some after → post locals after) :
    Leads scope [expr (.assign target operator e)] locals store post := by
  refine leads_expr fun value store' run => ?_
  simp only [Expr.eval, Option.bind_eq_bind, Option.bind_eq_some_iff, Prod.exists] at run
  obtain ⟨assigned, first, evaluated, place, second, placed, after, updated, same⟩ := run
  cases same
  exact holds _ _ _ _ _ evaluated placed updated

/-- Behind an assignment the place has the value. -/
theorem leads_set {target e : Expr} {post : Locals → Store → Prop}
    (holds : ∀ value first place second, e.eval scope locals store = some (value, first) →
      target.place scope locals first = some (place, second) →
      post locals (place.update value second)) :
    Leads scope [set target e] locals store post := by
  refine leads_assign fun value first place second after evaluated placed updated => ?_
  cases updated
  exact holds _ _ _ _ evaluated placed

/-- Behind a requirement its test is known to hold. -/
theorem leads_require {test : Expr} {message : String} {post : Locals → Store → Prop}
    (holds : ∀ store', test.eval scope locals store = some (.truth true, store') →
      post locals store') :
    Leads scope [require test message] locals store post := by
  refine leads_expr fun value store' run => ?_
  cases tested : test.eval scope locals store with
  | none => simp [Expr.apply, Expr.eval, Expr.evalAll, tested] at run
  | some result =>
    obtain ⟨passed, after⟩ := result
    have required : scope.apply "require" [passed, .text message] after = some (value, store') := by
      simpa [Expr.apply, Expr.eval, Expr.evalAll, tested] using run
    unfold Scope.apply at required
    rw [if_pos rfl] at required
    split at required
    · rename_i same
      cases same
      cases required
      exact holds _ tested
    · cases required

/-- Behind a comparison that is required of two numbers it is known to hold. -/
theorem leads_compare {left right : Expr} {a b : Nat} (operator message : String)
    (yieldsLeft : left.Yields scope locals store a)
    (yieldsRight : right.Yields scope locals store b) :
    Leads scope [require (.binary left operator right) message] locals store fun locals' store' =>
      locals' = locals ∧ store' = store ∧ arithmetic operator a b = some (.truth true) := by
  refine leads_require fun store' run => ?_
  obtain ⟨v, first, w, evalLeft, evalRight, combined⟩ := Expr.of_eval_binary run
  obtain ⟨rfl, rfl⟩ := yieldsLeft v first evalLeft
  obtain ⟨rfl, rfl⟩ := yieldsRight w store' evalRight
  exact ⟨rfl, rfl, combined⟩

theorem leads_declare {type name : String} {e : Expr} {post : Locals → Store → Prop}
    (holds : ∀ value store', e.eval scope locals store = some (value, store') →
      post ((name, value) :: locals) store') :
    Leads scope [declare type name e] locals store post := by
  intro flow after run
  rw [execAll_singleton] at run
  simp only [declare, exec, Option.bind_eq_bind, Option.bind_some, Option.bind_eq_some_iff,
    Prod.exists] at run
  obtain ⟨value, after, runs, same⟩ := run
  cases same
  exact ⟨_, rfl, holds _ _ runs⟩

/-- The locals of a branch end with it. -/
theorem leads_cond {test : Expr} {body : List Stmt} {alternative : Option (List Stmt)}
    {post : Locals → Store → Prop}
    (branches : ∀ passed first, test.eval scope locals store = some (.truth passed, first) →
      Leads scope (if passed then body else alternative.getD []) locals first
        fun _ store' => post locals store') :
    Leads scope [cond test body alternative] locals store post := by
  intro flow store' run
  rw [execAll_singleton] at run
  cases tested : test.eval scope locals store with
  | none => simp [exec, tested] at run
  | some result =>
    obtain ⟨value, first⟩ := result
    cases value with
    | truth passed =>
      rw [exec_cond tested] at run
      obtain ⟨⟨branch, after⟩, chosen, same⟩ := Option.map_eq_some_iff.1 run
      have ends : execAll scope (if passed then body else alternative.getD []) locals first =
          some (branch, after) := by
        cases passed with
        | true => exact chosen
        | false => cases alternative <;> exact chosen
      obtain ⟨inner, next, holds⟩ := branches passed first tested _ _ ends
      cases same
      exact ⟨locals, by rw [next]; rfl, holds⟩
    | _ => simp [exec, tested] at run

/-- An invariant of each round is one of the loop, by induction on the rounds that are left. -/
theorem leads_rounds {round : Nat → Store → Option (Flow × Store)} {inv : Nat → Store → Prop}
    (step : ∀ k store flow store', inv k store → round k store = some (flow, store') →
      (∃ locals, flow = .next locals) ∧ inv (k + 1) store')
    {first count : Nat} {store store' : Store} {flow : Flow} (holds : inv first store)
    (run : rounds round locals first count store = some (flow, store')) :
    flow = .next locals ∧ inv (first + count) store' := by
  induction count generalizing first store with
  | zero =>
    cases run
    exact ⟨rfl, holds⟩
  | succ count ih =>
    unfold rounds at run
    split at run
    · rename_i next between here
      obtain ⟨-, later⟩ := step _ _ _ _ holds here
      rw [← Nat.add_assoc, Nat.add_right_comm]
      exact ih later run
    · rename_i ended
      obtain ⟨⟨next, same⟩, -⟩ := step _ _ _ _ holds run
      exact absurd (same ▸ run) (ended _ _)

/-- What every round preserves holds behind a loop. -/
theorem leads_loop (inv : Nat → Store → Prop) {start test step i n : String} {count : Nat}
    (counted : countedLoop? start test step = some (i, n))
    (limit : locals.lookup n = some (.number count)) (holds : inv 0 store)
    (round : ∀ k store, inv k store →
      Leads scope ss ((i, .number k) :: locals) store fun _ store' => inv (k + 1) store') :
    Leads scope [loop start test step ss] locals store fun locals' store' =>
      locals' = locals ∧ inv count store' := by
  intro flow store' run
  rw [execAll_singleton] at run
  simp only [exec, counted, limit, Option.bind_eq_bind, Option.bind_some] at run
  have step (k : Nat) (store : Store) (flow : Flow) (store' : Store) (here : inv k store)
      (runs : execAll scope ss ((i, .number k) :: locals) store = some (flow, store')) :
      (∃ locals, flow = .next locals) ∧ inv (k + 1) store' := by
    obtain ⟨next, same, later⟩ := round k store here flow store' runs
    exact ⟨⟨next, same⟩, later⟩
  have ended := leads_rounds step holds run
  rw [Nat.zero_add] at ended
  exact ⟨locals, ended.1, rfl, ended.2⟩

end Stmt

end Mintage.Solidity
