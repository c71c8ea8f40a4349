import Mintage.Proofs.Contract.Calls
import Mintage.Proofs.Template

/-! The address that a contract gives for a token, and the one that its template shows for it. -/
namespace Mintage

open Solidity Template

namespace Solidity

variable {scope : Scope} {locals : Locals} {store : Store}

/-- The text that an expression is in a pack. -/
inductive Expr.Shows (scope : Scope) (locals : Locals) (store : Store) : Expr → String → Prop
  | field {e : Expr} {texts : Expr → String} (reads : e.showsField = true)
      (record : locals.lookup "parameters" = some (.record texts)) :
      Shows scope locals store e (texts e)
  | value {e : Expr} {s : String} (plain : e.showsField = false)
      (result : e.eval scope locals store = some (.text s, store)) : Shows scope locals store e s

theorem Expr.pack_cons {e : Expr} {s : String} (shows : Shows scope locals store e s)
    (es : List Expr) :
    Expr.pack scope locals (e :: es) store =
      (Expr.pack scope locals es store).map fun rest => (s ++ rest.1, rest.2) := by
  cases shows with
  | field reads record =>
    simp only [Expr.pack, reads, record, if_true, Option.bind_eq_bind, Option.bind_some]
    cases Expr.pack scope locals es store <;> rfl
  | value plain result =>
    simp only [Expr.pack, plain, result, Bool.false_eq_true, if_false, Option.bind_eq_bind,
      Option.bind_some]
    cases Expr.pack scope locals es store <;> rfl

/-- Two packs are the pack of all pieces, the second on the store that the first leaves. -/
theorem Expr.pack_append (es more : List Expr) (store : Store) :
    Expr.pack scope locals (es ++ more) store =
      (Expr.pack scope locals es store).bind fun first =>
        (Expr.pack scope locals more first.2).map fun rest => (first.1 ++ rest.1, rest.2) := by
  induction es generalizing store with
  | nil =>
    simp only [List.nil_append, Expr.pack, Option.bind_some, String.empty_append]
    exact Option.map_id'.symm
  | cons e es ih =>
    simp only [List.cons_append, Expr.pack, ih, Option.bind_eq_bind, Option.bind_assoc]
    congr 1
    funext shown
    split
    · simp only [Option.bind_assoc]
      congr 1
      funext first
      dsimp only [pure, Option.bind]
      cases Expr.pack scope locals more first.2 <;> simp [String.append_assoc]
    · rfl

theorem eval_packed {pieces : List Expr} {s : String} {after : Store}
    (pack : Expr.pack scope locals pieces store = some (s, after)) :
    (Plan.packed pieces).eval scope locals store = some (.text s, after) := by
  simp [Plan.packed, Expr.apply, Expr.method, Expr.eval, Expr.evalAll, pack, Scope.apply,
    Scope.conversions]

theorem eval_length {e : Expr} {s : String} {after : Store}
    (text : e.eval scope locals store = some (.text s, after)) :
    ((Expr.apply "bytes" [e]).member "length").eval scope locals store =
      some (.number s.utf8ByteSize, after) := by
  simp [Expr.apply, Expr.eval, Expr.evalAll, text, Scope.apply, Scope.conversions, Value.member?]

theorem shows_string (s : String) : Expr.Shows scope locals store (.string s) s :=
  .value rfl rfl

theorem shows_tokenId {id : Nat} (bound : locals.lookup "tokenId" = some (.number id)) :
    Expr.Shows scope locals store (toText Plan.tokenId) (toString id) := by
  refine .value (by decide +kernel) ?_
  have number : Plan.tokenId.eval scope locals store = some (.number id, store) :=
    Expr.eval_local (by decide) bound
  simp [toText, Expr.method, Expr.eval, Expr.evalAll, number, Scope.applyMember]

theorem mentionsField_of_field (opening closing name : String) :
    mentionsField (opening ++ ("parameters." ++ name) ++ closing) = true := by
  refine decide_eq_true ⟨opening.toList, name.toList ++ closing.toList, ?_⟩
  simp

end Solidity

theorem Parameter.showsField_text (parameter : Parameter) : parameter.text.showsField = true := by
  obtain ⟨name, type⟩ := parameter
  have plain : mentionsField ("parameters." ++ name) = true := by
    have field := mentionsField_of_field "" "" name
    rwa [String.empty_append, String.append_empty] at field
  cases type with
  | string => exact plain
  | bool =>
    have field := mentionsField_of_field "" " ? string(\"true\") : string(\"false\")" name
    rwa [String.empty_append] at field
  | address => exact mentionsField_of_field "uint256(uint160(" "))" name
  | bytes32 => exact mentionsField_of_field "uint256(" ")" name
  | _ => exact plain

namespace Plan

variable {p : Plan} {scope : Scope} {locals : Locals} {store : Store} {id : Nat}
  {texts : Expr → String}

/-- The names of the parameters, which a query gives in this order. -/
def fieldNames (p : Plan) : List String := p.parameters.map (·.name)

theorem storesUris_of_inherited (inherits : p.overridesUri = false) : p.storesUris = false :=
  (Bool.or_eq_false_iff.1 inherits).1

/-- Only the base and the number are left to the base contract. -/
theorem standard_of_inherited (inherits : p.overridesUri = false) :
    p.uriShape = .standard false := by
  unfold overridesUri at inherits
  rw [Bool.or_eq_false_iff] at inherits
  obtain ⟨-, plain⟩ := inherits
  split at plain
  · rename_i query shape
    rw [shape, plain]
  · cases plain

/-- The address of a token: the base, and what the template adds to it. -/
def servedUri (p : Plan) (id : Nat) : String :=
  p.uriBase ++ p.uriShape.filled (slotValue id p.fieldNames)

/-- The names of the parameters with the texts that they show as. -/
def shown (p : Plan) (texts : Expr → String) : List (String × String) :=
  p.parameters.map fun parameter => (parameter.name, texts parameter.text)

/-- The address of a token whose parameters show as these texts. -/
def shownUri (p : Plan) (id : Nat) (texts : Expr → String) : String :=
  p.uriBase ++ p.uriShape.filled (knownValue id (p.shown texts))

theorem shownUri_zero (p : Plan) (id : Nat) : p.shownUri id (fun _ => "0") = p.servedUri id := by
  simp [shownUri, servedUri, slotValue_eq_knownValue, shown, fieldNames, Function.comp_def]

/-- A query is packed key by key, each with the text of its parameter. -/
theorem pack_query (record : locals.lookup "parameters" = some (.record texts))
    (keys : List String) (parameters : List Parameter) :
    Expr.pack scope locals
        ((keys.zip parameters).flatMap fun entry => [.string entry.1, entry.2.text]) store =
      some (String.join (keys.zipWith (· ++ ·) (parameters.map fun p => texts p.text)), store) := by
  induction keys generalizing parameters with
  | nil => rfl
  | cons key keys ih =>
    cases parameters with
    | nil => rfl
    | cons parameter parameters =>
      have value : Expr.Shows scope locals store parameter.text (texts parameter.text) :=
        .field parameter.showsField_text record
      have rest := ih parameters
      simp only [List.zip_cons_cons, List.flatMap_cons, List.cons_append, List.nil_append]
      rw [Expr.pack_cons (shows_string key), Expr.pack_cons value, rest]
      simp [String.append_assoc]

theorem pack_queryTexts
    (record : p.hasParameters = true → locals.lookup "parameters" = some (.record texts)) :
    Expr.pack scope locals p.queryTexts store = some (query (p.shown texts), store) := by
  cases has : p.hasParameters with
  | false =>
    have none : p.parameters = [] := by simpa [hasParameters] using has
    simp only [queryTexts, shown, none]
    rfl
  | true =>
    have names : p.parameters.map (·.name) = (p.shown texts).map Prod.fst := by simp [shown]
    have values : (p.parameters.map fun p => texts p.text) = (p.shown texts).map Prod.snd := by
      simp [shown]
    rw [queryTexts, pack_query (record has), names, values, join_queryKeys]

variable (bound : locals.lookup "tokenId" = some (.number id))
include bound

/-- Each token of a template is packed as its text, its number or its query. -/
theorem pack_tokenTexts (token : Token)
    (record : p.hasParameters = true → token = .slot parametersSlot →
      locals.lookup "parameters" = some (.record texts))
    (known : ∀ name, token = .slot name → name = tokenIdSlot ∨ name = parametersSlot) :
    Expr.pack scope locals (p.tokenTexts token) store =
      some (token.fill (knownValue id (p.shown texts)), store) := by
  cases token with
  | text s =>
    rw [tokenTexts, Expr.pack_cons (shows_string s)]
    simp [Expr.pack, Token.fill]
  | slot name =>
    simp only [tokenTexts, Token.fill, knownValue]
    split
    · rw [Expr.pack_cons (shows_tokenId bound)]
      simp [Expr.pack]
    · rename_i other
      have isQuery : name = parametersSlot := (known name rfl).resolve_left other
      exact pack_queryTexts fun has => record has (congrArg Token.slot isQuery)

/-- The pieces of the tokens of a template are the template with its slots filled. -/
theorem pack_template (rest : List Token)
    (record : p.hasParameters = true → .slot parametersSlot ∈ rest →
      locals.lookup "parameters" = some (.record texts))
    (known : ∀ name, .slot name ∈ rest → name = tokenIdSlot ∨ name = parametersSlot) :
    Expr.pack scope locals (rest.flatMap p.tokenTexts) store =
      some (fillAll (knownValue id (p.shown texts)) rest, store) := by
  induction rest with
  | nil => rfl
  | cons token rest ih =>
    have first : Expr.pack scope locals (p.tokenTexts token) store =
        some (token.fill (knownValue id (p.shown texts)), store) := by
      refine pack_tokenTexts bound token (fun has slot => record has ?_)
        fun name slot => known name ?_
      · simp [slot]
      · simp [slot]
    have later := ih (fun has mem => record has (List.mem_cons_of_mem _ mem))
      fun name mem => known name (List.mem_cons_of_mem _ mem)
    rw [List.flatMap_cons, Expr.pack_append, first, Option.bind_some, later, fillAll_cons]
    rfl

/-- The address is the base and what the shape of the template adds, whether it is built here or by
the base contract. -/
theorem eval_uriOf (knows : p.KnowsUri)
    (base : p.baseUri.eval scope locals store = some (.text p.uriBase, store))
    (inherited : scope.inherited "tokenURI" [.number id] store =
      some (.text (p.uriBase ++ toString id), store))
    (record : p.readsParameters = true → locals.lookup "parameters" = some (.record texts)) :
    p.uriOf.eval scope locals store = some (.text (p.shownUri id texts), store) := by
  have baseShows : Expr.Shows scope locals store p.baseUri p.uriBase := by
    refine .value ?_ base
    unfold baseUri
    split <;> rfl
  have numberShows : Expr.Shows scope locals store (toText tokenId) (toString id) :=
    shows_tokenId bound
  unfold uriOf shownUri
  split
  · rename_i shape
    simp [shape, base, UriShape.filled]
  · rename_i shape
    split
    · refine eval_packed ?_
      rw [Expr.pack_cons baseShows, Expr.pack_cons numberShows]
      simp [Expr.pack, shape, UriShape.filled, knownValue]
    · have number : tokenId.eval scope locals store = some (.number id, store) :=
        Expr.eval_local (by decide) bound
      simp [Expr.method, Expr.eval, Expr.evalAll, number, Scope.applyMember, inherited, shape,
        UriShape.filled, knownValue]
  · rename_i shape
    have packed : Expr.pack scope locals p.queryTexts store =
        some (Template.query (p.shown texts), store) :=
      pack_queryTexts fun _ => record (by simp [readsParameters, shape])
    refine eval_packed ?_
    rw [Expr.pack_cons baseShows, Expr.pack_cons numberShows, packed]
    simp [shape, UriShape.filled, knownValue, show parametersSlot ≠ tokenIdSlot by decide]
  · rename_i rest shape
    have pieces : Expr.pack scope locals (rest.flatMap p.tokenTexts) store =
        some (fillAll (knownValue id (p.shown texts)) rest, store) := by
      refine pack_template bound rest (fun has mem => record ?_) (knows.slots rest shape)
      simp [readsParameters, shape, has, mem]
    refine eval_packed ?_
    rw [Expr.pack_cons baseShows, pieces]
    simp [shape, UriShape.filled]

omit bound in
/-- An address of its own leaves the function, but not an empty one. -/
theorem exec_stored {own : String}
    (number : tokenId.eval scope locals store = some (.number id, store))
    (noMap : locals.lookup "tokenURIMap" = none)
    (held : store.entries "tokenURIMap" id = .text own) (rest : List Stmt) :
    Stmt.execAll scope (.declare "string memory" "storedURI" storedUri ::
        .cond (.binary ((Expr.apply "bytes" [.ident "storedURI"]).member "length") ">" (.nat 0))
          [.returns (.ident "storedURI")] none :: rest) locals store =
      if own = "" then Stmt.execAll scope rest (("storedURI", .text "") :: locals) store
      else some (.done (.text own), store) := by
  have stored : storedUri.eval scope locals store = some (.text own, store) := by
    simp [storedUri, Expr.eval, number, Store.element, noMap, held]
  have again : (Expr.ident "storedURI").eval scope (("storedURI", .text own) :: locals) store =
      some (.text own, store) := Expr.eval_local (by decide) rfl
  have test := Expr.eval_binary ">" (eval_length again) (Expr.eval_nat 0)
  split
  · rename_i empty
    subst empty
    simp [Stmt.execAll, Stmt.exec, Stmt.declare, stored, test, arithmetic, Stmt.execAlternative,
      Flow.leave]
  · rename_i filled
    have long : 0 < own.utf8ByteSize := Nat.pos_of_ne_zero fun zero =>
      filled (String.utf8ByteSize_eq_zero_iff.1 zero)
    simp [Stmt.execAll, Stmt.exec, Stmt.declare, Stmt.returns, stored, test, arithmetic, again,
      long, Flow.leave]

end Plan

namespace Settings

variable (s : Settings)

theorem baseUri_function? :
    s.plan.contract.function? "_baseURI" =
      if !s.plan.isDelegated then
        some ⟨"_baseURI", [], ["internal", "view", "virtual", "override"], some "string memory",
          [.returns (.ident "customBaseURI")]⟩
      else none := by
  have notPayout : "_baseURI" ∉ s.plan.payoutNames := Plan.notMem_payoutNames (by decide)
  refine s.function?_of_condition ⟨"_baseURI", _, _, _, _⟩ (fun own => ?_) fun delegated => ?_
  · have own : s.plan.isDelegated = false := by simpa using own
    simp [Plan.contract, Plan.body, Plan.uriSection, own, Plan.baseUriMembers, Member.function]
  · simp [Plan.declared_contract, Plan.names, delegated, notPayout]

/-- The function is there only where the base contract would answer otherwise. -/
theorem tokenUri_function? :
    s.plan.contract.function? "tokenURI" =
      if s.plan.overridesUri then
        some ⟨"tokenURI", ["uint256 tokenId"],
          ["public", "view"] ++ if s.plan.isDelegated then [] else ["override"],
          some "string memory", s.plan.uriBody⟩
      else none := by
  have notPayout : "tokenURI" ∉ s.plan.payoutNames := Plan.notMem_payoutNames (by decide)
  refine s.function?_of_condition ⟨"tokenURI", _, _, _, _⟩ (fun overrides => ?_) fun inherits => ?_
  · simp [Plan.contract, Plan.body, Plan.uriSection, overrides, Plan.uriFunction, Member.function]
  · simp [Plan.declared_contract, Plan.names, inherits, notPayout]

/-- A store in which the base is the one that is told at deployment, and the token has no address
of its own and shows `0` for each of its parameters. -/
structure Sampled (id : Nat) (store : Store) : Prop where
  ownBase : store.fields "customBaseURI" = .text (leading s.tokenUri)
  givenBase : store.fields "uriBase" = .text (leading s.tokenUri)
  unset : store.entries "tokenURIMap" id = .text ""
  parameters : store.entries "tokenParametersMap" id = .record fun _ => "0"

/-- A store in which the base is the one that is told at deployment, the token has an address of its
own, which may be empty, and its parameters show as these texts. -/
structure Stored (id : Nat) (texts : Expr → String) (own : String) (store : Store) : Prop where
  ownBase : store.fields "customBaseURI" = .text (leading s.tokenUri)
  givenBase : store.fields "uriBase" = .text (leading s.tokenUri)
  own : store.entries "tokenURIMap" id = .text own
  parameters : store.entries "tokenParametersMap" id = .record texts

variable {s} {message : Message} {depth : Nat} {locals : Locals} {store : Store} {id : Nat}
  {texts : Expr → String} {own : String}

theorem Sampled.stored (sampled : s.Sampled id store) : s.Stored id (fun _ => "0") "" store :=
  ⟨sampled.ownBase, sampled.givenBase, sampled.unset, sampled.parameters⟩

theorem invoke_baseUri (stored : s.Stored id texts own store) :
    s.plan.contract.invoke message (depth + 1) "_baseURI" [] store =
      some (.text s.plan.uriBase, store) := by
  have found := s.baseUri_function?
  cases delegated : s.plan.isDelegated with
  | true =>
    rw [delegated] at found
    have given : store.fields "uriBase" = .text s.plan.uriBase := stored.givenBase
    rw [Contract.invoke_of_inherited _ found, ← given]
    rfl
  | false =>
    rw [delegated] at found
    have declared : Member.field "string" ["private"] "customBaseURI" ∈ s.plan.contract.body := by
      simp [Plan.contract, Plan.body, Plan.uriSection, delegated, Plan.baseUriMembers]
    have varies := s.constant_eq_none_of_mem declared (by decide)
    have held : store.fields "customBaseURI" = .text s.plan.uriBase := stored.ownBase
    have base : (Expr.ident "customBaseURI").eval (s.scope message depth) [] store =
        some (.text s.plan.uriBase, store) := by
      simp [Expr.eval, Scope.read, Scope.named, Contract.scope, varies, held,
        show Text.words "customBaseURI" = ["customBaseURI"] by decide]
    rw [Contract.invoke_of_function? _ found]
    simp [Contract.perform, bindArguments, Stmt.execAll, Stmt.exec, Stmt.returns, base, Flow.value]

/-- A delegated contract has the base written into it; the others ask for it. -/
theorem eval_baseUri (stored : s.Stored id texts own store) :
    s.plan.baseUri.eval (s.scope message (depth + 1)) locals store =
      some (.text s.plan.uriBase, store) := by
  have called : (s.scope message (depth + 1)).apply "_baseURI" [] store =
      some (.text s.plan.uriBase, store) := by
    rw [← invoke_baseUri stored]
    rfl
  unfold Plan.baseUri
  split
  · rfl
  · simpa [Expr.apply, Expr.eval, Expr.evalAll] using called

theorem inherited_tokenUri (stored : s.Stored id texts own store) :
    s.plan.contract.inherited message (s.plan.contract.invoke message (depth + 1)) "tokenURI"
      [.number id] store = some (.text (s.plan.uriBase ++ toString id), store) := by
  simp [Contract.inherited, invoke_baseUri stored]

/-- The parameters are read where the address needs them, and the address is returned. -/
theorem exec_uriReturn (stored : s.Stored id texts own store)
    (bound : locals.lookup "tokenId" = some (.number id))
    (noMap : locals.lookup "tokenParametersMap" = none) :
    Stmt.execAll (s.scope message (depth + 1)) (outline [
        .when s.plan.readsParameters
          (.declare (Parameter.record ++ " memory") "parameters" (Parameter.stored Plan.tokenId)),
        .one (.returns s.plan.uriOf)]) locals store =
      some (.done (.text (s.plan.shownUri id texts)), store) := by
  have inherited : (s.scope message (depth + 1)).inherited "tokenURI" [.number id] store =
      some (.text (s.plan.uriBase ++ toString id), store) := inherited_tokenUri stored
  cases reads : s.plan.readsParameters with
  | false =>
    have address : s.plan.uriOf.eval (s.scope message (depth + 1)) locals store =
        some (.text (s.plan.shownUri id texts), store) :=
      Plan.eval_uriOf bound s.knowsUri_plan (eval_baseUri stored) inherited (by simp [reads])
    simp [Part.items, Stmt.execAll, Stmt.exec, Stmt.returns, address]
  | true =>
    have number : Plan.tokenId.eval (s.scope message (depth + 1)) locals store =
        some (.number id, store) := Expr.eval_local (by decide) bound
    have record : (Parameter.stored Plan.tokenId).eval (s.scope message (depth + 1)) locals store =
        some (.record texts, store) := by
      simp [Parameter.stored, Parameter.map, Expr.eval, number, Store.element, noMap,
        stored.parameters]
    have address : s.plan.uriOf.eval (s.scope message (depth + 1))
        (("parameters", .record texts) :: locals) store =
        some (.text (s.plan.shownUri id texts), store) :=
      Plan.eval_uriOf bound s.knowsUri_plan (eval_baseUri stored) inherited fun _ => rfl
    simp [Part.items, Stmt.execAll, Stmt.exec, Stmt.declare, Stmt.returns, record, address]

/-- The address that a contract gives for a token: its own, where addresses are stored and it is
not empty, or the one that is built for it. -/
def answeredUri (s : Settings) (id : Nat) (texts : Expr → String) (own : String) : String :=
  if s.storesUris = true ∧ own ≠ "" then own else s.plan.shownUri id texts

/-- A stored address goes first, unless it is empty. -/
theorem exec_uriBody (stored : s.Stored id texts own store) :
    Stmt.execAll (s.scope message (depth + 1)) s.plan.uriBody [("tokenId", .number id)] store =
      some (.done (.text (s.answeredUri id texts own)), store) := by
  have same : s.plan.storesUris = s.storesUris := rfl
  unfold Plan.uriBody answeredUri
  rw [same]
  cases s.storesUris with
  | false => exact exec_uriReturn stored rfl rfl
  | true =>
    refine (Plan.exec_stored (Expr.eval_local (by decide) rfl) rfl stored.own _).trans ?_
    split
    · rename_i empty
      rw [if_neg (by simp [empty])]
      exact exec_uriReturn stored rfl rfl
    · rename_i filled
      simp [filled]

/-- The contract answers with the address, whether its own function gives it or the base. -/
theorem invoke_answeredUri (stored : s.Stored id texts own store) (word : id < wordBound) :
    s.plan.contract.invoke message (depth + 2) "tokenURI" [.number id] store =
      some (.text (s.answeredUri id texts own), store) := by
  have found := s.tokenUri_function?
  cases overrides : s.plan.overridesUri with
  | true =>
    rw [overrides, if_pos rfl] at found
    have bound : bindArguments ["uint256 tokenId"] [.number id] =
        some [("tokenId", .number id)] := by
      simp [bindArguments, Value.hasType, word,
        show argumentOf "uint256 tokenId" = some ("tokenId", "uint256") by decide]
    rw [Contract.invoke_of_function? _ found, Contract.perform, bound]
    simp [exec_uriBody stored, Flow.value]
  | false =>
    rw [overrides] at found
    have shape := Plan.standard_of_inherited overrides
    have unset : s.storesUris = false := Plan.storesUris_of_inherited overrides
    rw [Contract.invoke_of_inherited _ found, inherited_tokenUri stored]
    simp [answeredUri, unset, Plan.shownUri, shape, UriShape.filled, knownValue]

theorem invoke_tokenUri (sampled : s.Sampled id store) (word : id < wordBound) :
    s.plan.contract.invoke message (depth + 2) "tokenURI" [.number id] store =
      some (.text (s.plan.servedUri id), store) := by
  rw [invoke_answeredUri sampled.stored word, answeredUri, if_neg (by simp), Plan.shownUri_zero]

/-- What the shape of the addresses adds to the base, where the query of no parameters is empty. -/
theorem filled_uriShape {tokens : List Token} (accepted : parseUri s.tokenUri = .ok tokens)
    {value : String → String} (unused : s.parameters = [] → value parametersSlot = "") :
    s.plan.uriShape.filled value =
      if tokens.any UriShape.isSlot then fillAll value (UriShape.dropBase tokens) else "" := by
  have shape : s.plan.uriShape = _ := UriShape.ofTemplate_of_parseUri accepted
  rw [shape]
  split
  · exact UriShape.filled_ofTokens (fun none => unused (by simpa using none)) _
  · rfl

/-- For an accepted template, the shape in the plan fills as the template without its base. -/
theorem filled_plan {tokens : List Token} (accepted : parseUri s.tokenUri = .ok tokens) :
    s.plan.uriShape.filled (slotValue id s.parameterNames) =
      if tokens.any UriShape.isSlot then
        fillAll (slotValue id s.parameterNames) (UriShape.dropBase tokens)
      else "" := by
  refine filled_uriShape accepted fun unnamed => ?_
  simp [parameterNames, unnamed, slotValue, sampleQuery, queryKeys,
    show parametersSlot ≠ tokenIdSlot by decide]

/-- A contract gives the address that the template shows for a token, unless the template has no
slot and is more than one text: then the contract gives the first text only. -/
theorem tokenUri_agrees_iff (s : Settings) (message : Message) {store : Store} {id : Nat}
    (sampled : s.Sampled id store) (word : id < wordBound) {tokens : List Token}
    (accepted : parseUri s.tokenUri = .ok tokens) :
    ∃ served, s.plan.contract.invoke message callDepth "tokenURI" [.number id] store =
        some (.text served, store) ∧
      (Template.uri s.tokenUri id s.parameterNames = .ok served ↔
        tokens.any UriShape.isSlot = true ∨ tokens.length ≤ 1) := by
  refine ⟨s.plan.servedUri id, invoke_tokenUri sampled word, ?_⟩
  have served : s.plan.servedUri id =
      leading s.tokenUri ++ s.plan.uriShape.filled (slotValue id s.parameterNames) := rfl
  rw [uri_of_parseUri accepted, UriShape.fillAll_dropBase accepted, served, filled_plan accepted]
  cases slots : tokens.any UriShape.isSlot with
  | true => simp
  | false =>
    rw [← UriShape.fillAll_dropBase_eq_empty accepted (slotValue id s.parameterNames) slots]
    simp

/-- A contract with a parameter, for whose addresses the template is several texts and slots. -/
def sampleAddress : Settings where
  __ := blank
  tokenUri := "a\x7b\x7db\x7btokenId\x7d\x7bparameters\x7d\x7bparameters"
  storesUris := true
  parameters := [⟨"kind", .bool⟩]

/-- A store as at deployment, with this base. -/
def freshAddresses (base : String) : Store where
  balance := 0
  sent := []
  owner := 1
  tokens := [7]
  counters := fun _ => 0
  fields := fun _ => .text base
  entries := fun map _ => if map = "tokenURIMap" then .text "" else .record fun _ => "0"
  questions := 0

theorem tokenUri_sampleAddress :
    parseUri sampleAddress.tokenUri =
        .ok [.text "a", .text "b", .slot "tokenId", .slot "parameters", .slot "parameters"] ∧
      sampleAddress.Sampled 7 (freshAddresses "a") ∧ 7 < wordBound ∧
      sampleAddress.plan.contract.invoke ⟨1, 0, fun _ => .unit⟩ callDepth "tokenURI" [.number 7]
        (freshAddresses "a") = some (.text "ab7?kind=0?kind=0", freshAddresses "a") := by
  have accepted : parseUri sampleAddress.tokenUri =
      .ok [.text "a", .text "b", .slot "tokenId", .slot "parameters", .slot "parameters"] := by
    decide +kernel
  have sampled : sampleAddress.Sampled 7 (freshAddresses "a") := by
    have base : leading sampleAddress.tokenUri = "a" := by decide +kernel
    exact ⟨by rw [base]; rfl, by rw [base]; rfl, rfl, rfl⟩
  obtain ⟨served, answer, agrees⟩ := tokenUri_agrees_iff sampleAddress ⟨1, 0, fun _ => .unit⟩
    sampled (by decide) accepted
  have shown : Template.uri sampleAddress.tokenUri 7 sampleAddress.parameterNames =
      .ok "ab7?kind=0?kind=0" := by decide +kernel
  have same := shown.symm.trans (agrees.2 (.inl rfl))
  cases same
  exact ⟨accepted, sampled, by decide, answer⟩

/-- A delegated contract with two texts and nothing between them. -/
def sampleGap : Settings where
  __ := blank
  tokenUri := "a\x7b\x7db"
  delegated := true

theorem tokenUri_sampleGap :
    parseUri sampleGap.tokenUri = .ok [.text "a", .text "b"] ∧
      sampleGap.Sampled 7 (freshAddresses "a") ∧
      sampleGap.plan.contract.invoke ⟨1, 0, fun _ => .unit⟩ callDepth "tokenURI" [.number 7]
        (freshAddresses "a") = some (.text "a", freshAddresses "a") ∧
      Template.uri sampleGap.tokenUri 7 sampleGap.parameterNames = .ok "ab" := by
  have sampled : sampleGap.Sampled 7 (freshAddresses "a") := by
    have base : leading sampleGap.tokenUri = "a" := by decide +kernel
    exact ⟨by rw [base]; rfl, by rw [base]; rfl, rfl, rfl⟩
  have served : sampleGap.plan.servedUri 7 = "a" := by decide +kernel
  have answer : sampleGap.plan.contract.invoke ⟨1, 0, fun _ => .unit⟩ callDepth "tokenURI"
      [.number 7] (freshAddresses "a") =
        some (.text (sampleGap.plan.servedUri 7), freshAddresses "a") :=
    invoke_tokenUri sampled (by decide)
  rw [served] at answer
  exact ⟨by decide +kernel, sampled, answer, by decide +kernel⟩

end Settings

end Mintage
