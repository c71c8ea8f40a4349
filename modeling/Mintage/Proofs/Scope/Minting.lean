import Mintage.Proofs.Scope.Sale
import Mintage.Contract.Minting

/-! The names in the section that mints tokens. -/
namespace Mintage.Plan

open Solidity

variable {p : Plan} {g : Given} {locals : List String}

/-- The locals that the code of `mint` reads are there. -/
structure MintLocals (p : Plan) (locals : List String) : Prop where
  parameters : p.hasParameters = true → "parameters" ∈ locals
  count : p.mintsSeveral = true → "count" ∈ locals
  ids : p.minterPicksIds = true → p.mintsSeveral = true → "ids" ∈ locals
  id : p.minterPicksIds = true → p.mintsSeveral = false → "id" ∈ locals

theorem MintLocals.mono {locals' : List String} (holds : p.MintLocals locals)
    (sub : locals ⊆ locals') : p.MintLocals locals' :=
  ⟨fun has => sub (holds.parameters has), fun several => sub (holds.count several),
    fun picks several => sub (holds.ids picks several), fun picks one => sub (holds.id picks one)⟩

theorem accounts_mintCount (mint : p.MintLocals locals) :
    p.Accounts locals (p.mintCount.names g) := by
  unfold mintCount
  split
  · rename_i several
    rw [accounts_shared (by decide) (by decide)]
    exact .inl (mint.count several)
  · exact accounts_nil

/-- A contract with a rule has its access token, and a switch if the rule has one. -/
theorem gate_available {gate : Gate} (gated : p.gate = some gate) :
    "accessToken" ∈ p.available ∧ (gate.switches = true → "accessTokenIsActive" ∈ p.available) := by
  refine ⟨by simp [available, names, gated], fun switches => ?_⟩
  simp [available, names, gated, switches]

theorem accounts_ownsSome {gate : Gate} (gated : p.gate = some gate) :
    p.Accounts locals (Stmt.blockNames g [gate.ownsSome p.sender]) := by
  obtain ⟨token, active⟩ := gate_available gated
  have senderNames : p.Accounts locals (p.sender.names g) := accounts_sender
  unfold Gate.ownsSome Gate.guarded
  split
  · rename_i switches
    simp (disch := decide) [accounts_block_cons, accounts_plain, accounts_shared, Expr.method,
      Gate.token, Gate.isActive, senderNames, token, active switches]
  · simp (disch := decide) [accounts_block_cons, accounts_plain, accounts_shared, Expr.method,
      Gate.token, senderNames, token]

theorem accounts_ownsThis {gate : Gate} (gated : p.gate = some gate) {tokenId : Expr}
    (number : p.Accounts locals (tokenId.names g)) :
    p.Accounts locals (Stmt.blockNames g [gate.ownsThis p.sender tokenId]) := by
  obtain ⟨token, active⟩ := gate_available gated
  have senderNames : p.Accounts locals (p.sender.names g) := accounts_sender
  unfold Gate.ownsThis Gate.guarded
  split
  · rename_i switches
    simp (disch := decide) [accounts_block_cons, accounts_plain, accounts_shared, Expr.method,
      Gate.token, Gate.isActive, senderNames, number, token, active switches]
  · simp (disch := decide) [accounts_block_cons, accounts_plain, accounts_shared, Expr.method,
      Gate.token, senderNames, number, token]

theorem totalSupply_available : "totalSupply" ∈ p.available := by
  cases counts : p.countsSupply <;> simp [available, names, provided, counts]

theorem accounts_totalSupply : p.Accounts locals (totalSupply.names g) := by
  simp (disch := decide) [totalSupply, Expr.apply, accounts_shared, totalSupply_available]

/-- The limit has its constant, since the check is there only with a limit. -/
theorem accounts_supplyCheck (mint : p.MintLocals locals) (limited : p.supply.isSome = true) :
    p.Accounts locals (Stmt.blockNames g [p.supplyCheck]) := by
  have supply : "MAX_SUPPLY" ∈ p.available := by simp [available, names, limited]
  have total : p.Accounts locals (totalSupply.names g) := accounts_totalSupply
  have count : p.Accounts locals (p.mintCount.names g) := accounts_mintCount mint
  unfold supplyCheck
  split <;>
    simp (disch := decide) [accounts_block_cons, accounts_plain, accounts_shared, total, count,
      supply]

theorem accounts_paymentCheck (mint : p.MintLocals locals) {price : Price}
    (priced : p.price = some price) :
    p.Accounts locals (Stmt.blockNames g [p.paymentCheck price]) := by
  have each : "PRICE" ∈ p.available := by simp [available, names, priced]
  have paid : p.Accounts locals ((Expr.ident "msg.value").names g) :=
    accounts_of_shared [] rfl (by simp)
  have count : p.Accounts locals (p.mintCount.names g) := accounts_mintCount mint
  unfold paymentCheck
  split <;>
    simp (disch := decide) [accounts_block_cons, accounts_plain, accounts_shared, paid, count, each]

theorem accounts_storeParameters {fields : List String} (mint : p.MintLocals locals)
    {tokenId : Expr} (number : p.Accounts locals (tokenId.names ⟨fields, []⟩)) :
    p.Accounts locals (Stmt.blockNames ⟨fields, []⟩ (p.storeParameters tokenId)) := by
  unfold storeParameters
  split
  · rename_i has
    have map : "tokenParametersMap" ∈ p.available := by simp [available, names, has]
    simp (disch := decide) [accounts_block_cons, accounts_shared, Parameter.stored,
      Parameter.map, number, map, mint.parameters has]
  · exact accounts_nil

theorem accounts_mint {tokenId : Expr} (number : p.Accounts locals (tokenId.names g)) :
    p.Accounts locals (Stmt.blockNames g [.expr (p.mint p.sender tokenId)]) := by
  have senderNames : p.Accounts locals (p.sender.names g) := accounts_sender
  unfold mint
  split <;>
    simp (disch := decide) [accounts_block_cons, accounts_plain, Expr.apply, senderNames, number]

theorem accounts_countToken : p.Accounts locals (Stmt.blockNames g p.countToken) := by
  unfold countToken
  split
  · rename_i counts
    have counter : "supplyCounter" ∈ p.available := by simp [available, names, counts]
    simp (disch := decide) [accounts_block_cons, accounts_shared, Expr.method, Plan.counter,
      counter]
  · exact accounts_nil

/-- A token is created in the same way whether its number is picked or comes next. -/
theorem accounts_creation {fields : List String} (mint : p.MintLocals locals) {tokenId : Expr}
    (number : ∀ locals', locals ⊆ locals' → p.Accounts locals' (tokenId.names ⟨fields, []⟩)) :
    p.Accounts locals (Stmt.blockNames ⟨fields, []⟩
      (p.storeParameters tokenId ++ ([Stmt.expr (p.mint p.sender tokenId)] ++ p.countToken))) := by
  refine accounts_block_append (accounts_storeParameters mint (number _ (List.Subset.refl _))) ?_
  exact accounts_block_append (accounts_mint (number _ (List.subset_append_right _ _)))
    accounts_countToken

theorem accounts_mintNext {fields : List String} (mint : p.MintLocals locals) :
    p.Accounts locals (Stmt.blockNames ⟨fields, []⟩ p.mintNext) := by
  simp only [mintNext, outline_cons, outline_nil, Part.items, List.append_nil]
  exact accounts_creation mint fun _ _ => accounts_totalSupply

/-- A bound is checked only where the constant for it is declared. -/
theorem accounts_boundCheck (id : "id" ∈ locals) :
    p.Accounts locals (Stmt.blockNames g (Part.items (.optional (p.tokenIdBound.map fun bound =>
      .require (.binary (.ident "id") "<" (.ident bound)) "Invalid token id")))) := by
  unfold tokenIdBound
  split
  · rename_i own
    have limit : "MAX_TOKEN_ID" ∈ p.available := by simp [available, names, own]
    simp (disch := decide) [Part.items, accounts_block_cons, accounts_plain, accounts_shared, id,
      limit]
  split
  · rename_i limited
    have limit : "MAX_SUPPLY" ∈ p.available := by simp [available, names, limited]
    simp (disch := decide) [Part.items, accounts_block_cons, accounts_plain, accounts_shared, id,
      limit]
  · exact accounts_nil

/-- A token whose number is the local `id`. -/
theorem accounts_pickedToken {fields : List String} (mint : p.MintLocals locals)
    (named : "id" ∈ locals) :
    p.Accounts locals (Stmt.blockNames ⟨fields, []⟩ (outline [
      .optional (p.gate.map fun gate => gate.ownsThis p.sender (.ident "id")),
      .optional (p.tokenIdBound.map fun bound =>
        .require (.binary (.ident "id") "<" (.ident bound)) "Invalid token id"),
      .all (p.storeParameters (.ident "id")),
      .one (.expr (p.mint p.sender (.ident "id"))),
      .all p.countToken])) := by
  have number (locals' : List String) (sub : locals ⊆ locals') :
      p.Accounts locals' ((Expr.ident "id").names ⟨fields, []⟩) := by
    rw [accounts_shared (by decide) (by decide)]
    exact .inl (sub named)
  simp only [outline_cons, outline_nil]
  refine accounts_block_append ?_ (accounts_block_append ?_ ?_)
  · cases gated : p.gate with
    | none => exact accounts_nil
    | some gate => exact accounts_ownsThis gated (number _ (List.Subset.refl _))
  · exact accounts_boundCheck (List.mem_append_right _ named)
  · have inner := List.Subset.trans (List.subset_append_right
      ((Part.items (.optional (p.gate.map fun gate =>
        gate.ownsThis p.sender (.ident "id")))).flatMap Stmt.bound) locals)
      (List.subset_append_right ((Part.items (.optional (p.tokenIdBound.map fun bound =>
        .require (.binary (.ident "id") "<" (.ident bound)) "Invalid token id"))).flatMap
          Stmt.bound) _)
    simp only [Part.items, List.append_nil]
    exact accounts_creation (mint.mono inner) fun locals' sub =>
      number _ (List.Subset.trans inner sub)

/-- A picked number is an argument, or it is declared from the list of them in each round. -/
theorem accounts_mintPicked {fields : List String} (mint : p.MintLocals locals)
    (picks : p.minterPicksIds = true) (round : p.mintsSeveral = true → "i" ∈ locals) :
    p.Accounts locals (Stmt.blockNames ⟨fields, []⟩ p.mintPicked) := by
  rw [mintPicked, outline_cons]
  cases several : p.mintsSeveral with
  | false => exact accounts_pickedToken mint (mint.id picks several)
  | true =>
    have type : p.Accounts locals (namesIn "uint256") := accounts_of_shared [] rfl (by simp)
    refine accounts_block_cons.2 ⟨?_, ?_⟩
    · simp (disch := decide) [accounts_shared, type, mint.ids picks several, round several]
    · exact accounts_pickedToken (mint.mono (List.subset_append_right _ _)) List.mem_cons_self

/-- What one mint reads is there in a round of the loop as well as alone. -/
theorem accounts_mintOne {fields : List String} (mint : p.MintLocals locals)
    (round : p.mintsSeveral = true → "i" ∈ locals) :
    p.Accounts locals (Stmt.blockNames ⟨fields, []⟩ p.mintOne) := by
  unfold mintOne
  split
  · rename_i picks
    exact accounts_mintPicked mint picks round
  · exact accounts_mintNext mint

theorem accounts_tokens {fields : List String} (mint : p.MintLocals locals) :
    p.Accounts locals (Stmt.blockNames ⟨fields, []⟩
      (if p.mintsSeveral then [.loop "uint256 i = 0" "i < count" "i++" p.mintOne]
        else p.mintOne)) := by
  split
  · rename_i several
    have clauses : p.Accounts ("i" :: locals)
        (namesIn "uint256 i = 0" ++ namesIn "i < count" ++ namesIn "i++") := by
      refine accounts_of_shared ["i", "i", "count", "i"] rfl ?_
      simp [mint.count several]
    have body : p.Accounts ("i" :: locals) (Stmt.blockNames ⟨fields, []⟩ p.mintOne) :=
      accounts_mintOne (mint.mono (List.subset_cons_self _ _)) fun _ => List.mem_cons_self
    have counter : (Variable.ofLine "uint256 i = 0").name = "i" := by decide
    refine accounts_block_cons.2 ⟨?_, accounts_nil⟩
    rw [Stmt.names, counter, accounts_filter]
    exact accounts_append.2 ⟨clauses, body⟩
  · rename_i one
    exact accounts_mintOne mint fun several => absurd several one

/-- The locals that the arguments of `mint` declare. -/
structure MintArguments (p : Plan) (locals : List String) : Prop where
  parameters : p.hasParameters = true → "parameters" ∈ locals
  count : p.minterPicksIds = false → p.mintsSeveral = true → "count" ∈ locals
  ids : p.minterPicksIds = true → p.mintsSeveral = true → "ids" ∈ locals
  id : p.minterPicksIds = true → p.mintsSeveral = false → "id" ∈ locals

/-- The arguments of the function declare what the body reads, but for the count of picked
tokens. -/
theorem mintArguments_names : p.MintArguments (argumentNames p.mintArguments ++ []) := by
  have argument : argumentOf Parameter.argument = some ("parameters", "TokenParameters") := by
    decide
  have ids : argumentOf "uint256[] calldata ids" = some ("ids", "uint256[]") := by decide
  have id : argumentOf "uint256 id" = some ("id", "uint256") := by decide
  have count : argumentOf "uint256 count" = some ("count", "uint256") := by decide
  rw [List.append_nil]
  refine ⟨fun has => ?_, fun serial several => ?_, fun picks several => ?_, fun picks one => ?_⟩
  · exact mem_argumentNames (by simp [mintArguments, has]) argument
  · exact mem_argumentNames (by simp [mintArguments, serial, several]) count
  · exact mem_argumentNames (by simp [mintArguments, picks, several]) ids
  · exact mem_argumentNames (by simp [mintArguments, picks, one]) id

theorem accounts_batchChecks (arguments : p.MintArguments locals) :
    p.Accounts locals (Stmt.blockNames g p.batchChecks) := by
  unfold batchChecks
  split
  · exact accounts_nil
  · rename_i limit batch
    have several : p.mintsSeveral = true := by simp [mintsSeveral, batch]
    have upper : "MAX_MULTIMINT" ∈ p.available := by simp [available, names, batch]
    cases picks : p.minterPicksIds with
    | false =>
      simp (disch := decide) [Part.items, accounts_block_cons, accounts_plain, accounts_shared,
        arguments.count picks several, upper]
    | true =>
      have type : p.Accounts locals (namesIn "uint256") := accounts_of_shared [] rfl (by simp)
      simp (disch := decide) [Part.items, accounts_block_cons, accounts_plain, accounts_shared,
        type, arguments.ids picks several, upper]

/-- Behind the checks of the batch the number of tokens is at hand. -/
theorem mintLocals_of_batchChecks (arguments : p.MintArguments locals) :
    p.MintLocals (p.batchChecks.flatMap Stmt.bound ++ locals) := by
  refine ⟨fun has => ?_, fun several => ?_, fun picks several => ?_, fun picks one => ?_⟩
  · exact List.mem_append_right _ (arguments.parameters has)
  · obtain ⟨limit, batch⟩ := Option.isSome_iff_exists.1 several
    cases picks : p.minterPicksIds with
    | false => exact List.mem_append_right _ (arguments.count picks several)
    | true => simp [batchChecks, batch, picks, Part.items]
  · exact List.mem_append_right _ (arguments.ids picks several)
  · exact List.mem_append_right _ (arguments.id picks one)

/-- The checks declare the count where the arguments do not, so all behind them find it. -/
theorem accounts_mintBody {fields : List String} (arguments : p.MintArguments locals) :
    p.Accounts locals (Stmt.blockNames ⟨fields, []⟩ p.mintBody) := by
  have mint := mintLocals_of_batchChecks arguments
  have grows (ss : List Stmt) {inner : List String} (mint : p.MintLocals inner) :
      p.MintLocals (ss.flatMap Stmt.bound ++ inner) := mint.mono (List.subset_append_right _ _)
  simp only [mintBody, outline_cons, outline_nil]
  refine accounts_block_append (accounts_batchChecks arguments) (accounts_block_append ?_
    (accounts_block_append ?_ (accounts_block_append ?_ (accounts_block_append ?_ ?_))))
  · simp only [Part.items]
    split
    · exact accounts_nil
    · exact accounts_saleChecks (accounts_mintCount mint)
  · cases p.minterPicksIds with
    | true => exact accounts_nil
    | false =>
      cases gated : p.gate with
      | none => exact accounts_nil
      | some gate => exact accounts_ownsSome gated
  · cases limited : p.supply with
    | none => exact accounts_nil
    | some supply => exact accounts_supplyCheck (grows _ (grows _ mint)) (by simp [limited])
  · cases priced : p.price with
    | none => exact accounts_nil
    | some price => exact accounts_paymentCheck (grows _ (grows _ (grows _ mint))) priced
  · rw [List.append_nil]
    exact accounts_tokens (grows _ (grows _ (grows _ (grows _ mint))))

/-- Of the types and modifiers, only the record of the parameters is a shared name. -/
theorem accounts_mintHeader :
    p.Accounts locals (argumentTypes p.mintArguments ++ p.mintModifiers.flatMap namesIn) := by
  refine accounts_append.2 ⟨?_, accounts_flatMap fun modifier mem => ?_⟩
  · unfold mintArguments
    cases has : p.hasParameters with
    | false =>
      cases p.minterPicksIds <;> cases p.mintsSeveral <;> exact accounts_of_shared [] rfl (by simp)
    | true =>
      have type : "TokenParameters" ∈ p.available := by simp [available, names, has]
      cases p.minterPicksIds <;> cases p.mintsSeveral <;>
        exact accounts_of_shared ["TokenParameters"] rfl (by simp [type])
  · simp only [mintModifiers, outline_cons, outline_nil, List.append_nil, List.mem_append,
      Part.mem_one, Part.mem_when] at mem
    rcases mem with rfl | ⟨-, rfl⟩ | rfl | ⟨-, rfl⟩ <;> exact accounts_of_shared [] rfl (by simp)

/-- The names of the minting section are declared in it, or come with the base. -/
theorem accounts_minting : p.Accounts [] (p.minting.flatMap (Member.names g)) := by
  refine accounts_flatMap fun m mem => ?_
  simp only [minting, outline_cons, outline_nil, List.append_nil, List.mem_append,
    Part.mem_one, Part.mem_optional, Part.mem_when] at mem
  rcases mem with rfl | field | limit | limit | limit | limit | ⟨counts, rfl⟩ | rfl | ⟨counts, rfl⟩
  · exact accounts_nil
  · obtain ⟨gate, gated, rfl⟩ := Option.map_eq_some_iff.1 field
    have type : "IERC721" ∈ p.available := by simp [available, names, provided, gated]
    refine accounts_field _ ?_
    cases gate.moves <;> exact accounts_of_shared ["IERC721"] rfl (by simp [type])
  · obtain ⟨value, -, rfl⟩ := Option.map_eq_some_iff.1 limit
    exact accounts_constant _ _
  · obtain ⟨value, -, rfl⟩ := Option.map_eq_some_iff.1 limit
    exact accounts_constant _ _
  · obtain ⟨value, -, rfl⟩ := Option.map_eq_some_iff.1 limit
    exact accounts_constant _ _
  · obtain ⟨value, -, rfl⟩ := Option.map_eq_some_iff.1 limit
    exact accounts_constant _ _
  · refine accounts_field _ (accounts_of_shared ["Counters"] rfl ?_)
    simp [available, names, provided, counts]
  · exact accounts_function (by simpa using accounts_mintHeader)
      (accounts_mintBody mintArguments_names)
  · refine accounts_of_shared ["supplyCounter"] rfl ?_
    simp [available, names, counts]

end Mintage.Plan
