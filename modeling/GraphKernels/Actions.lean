import Mathlib

set_option autoImplicit false

/- The Flight server's action dispatch (`server/src/actions.rs`): the advertised
`FlightAction::action_types`, `TryFrom<Action> for FlightAction` with the `TryFrom<Action>`
of each config, and `TryFrom<FlightDescriptor> for CreateGraphCommand`. `tonic::Status`,
`arrow_flight::Action`, `ActionType` and `FlightDescriptor` keep the fields read here. The
JSON bodies are decoded by `serde_json::from_slice`, which is not modelled: each config's
decoder is a parameter, returning the `Debug` text of its error. -/
namespace GraphKernels.Server

inductive Code where
  | invalidArgument
  | internal
  deriving DecidableEq, Repr

structure Status where
  code : Code
  message : String
  deriving DecidableEq, Repr

structure Action where
  type : String
  body : List UInt8

structure ActionType where
  type : String
  description : String

/-- `from_json_error`. -/
def fromJsonError (error : String) : Status := ⟨.internal, s!"JsonError: {error}"⟩

/-- `serde_json::from_slice(bytes).map_err(from_json_error)`, with `decode` the `from_slice`
of the target type. -/
def fromSliceMapErr {A : Type} (decode : List UInt8 → Except String A) (bytes : List UInt8) :
    Except Status A :=
  (decode bytes).mapError fromJsonError

/-- `TryFrom<Action> for CreateGraphFromFileConfig`. -/
def createGraphFromFileConfigTryFrom {C : Type} (decode : List UInt8 → Except String C)
    (action : Action) : Except Status C :=
  fromSliceMapErr decode action.body

/-- `TryFrom<Action> for ComputeConfig`. -/
def computeConfigTryFrom {K : Type} (decode : List UInt8 → Except String K)
    (action : Action) : Except Status K :=
  fromSliceMapErr decode action.body

/-- `TryFrom<Action> for RelabelConfig`. -/
def relabelConfigTryFrom {R : Type} (decode : List UInt8 → Except String R)
    (action : Action) : Except Status R :=
  fromSliceMapErr decode action.body

/-- `FlightAction` over the config types `CreateGraphFromFileConfig`, `ComputeConfig` and
`RelabelConfig`. -/
inductive FlightAction (C K R : Type) where
  | create (config : C)
  | list
  | compute (config : K)
  | relabel (config : R)

/-- `FlightAction::action_types`. -/
def actionTypes : List ActionType :=
  [⟨"create", "Create an in-memory graph."⟩,
    ⟨"list", "List in-memory graphs."⟩,
    ⟨"compute", "Compute a graph algorithm on an in-memory graph."⟩,
    ⟨"relabel", "Relabel an in-memory graph"⟩]

structure Decoders (C K R : Type) where
  create : List UInt8 → Except String C
  compute : List UInt8 → Except String K
  relabel : List UInt8 → Except String R

namespace FlightAction

variable {C K R : Type}

def type : FlightAction C K R → String
  | .create _ => "create"
  | .list => "list"
  | .compute _ => "compute"
  | .relabel _ => "relabel"

/-- `FlightAction::try_from(action)`. -/
def tryFrom (decoders : Decoders C K R) (action : Action) : Except Status (FlightAction C K R) :=
  let actionType := action.type
  match actionType with
  | "create" => do
    let createAction ← createGraphFromFileConfigTryFrom decoders.create action
    pure (.create createAction)
  | "list" => pure .list
  | "compute" => do
    let computeAction ← computeConfigTryFrom decoders.compute action
    pure (.compute computeAction)
  | "relabel" => do
    let relabelAction ← relabelConfigTryFrom decoders.relabel action
    pure (.relabel relabelAction)
  | _ => throw ⟨.invalidArgument, s!"Unknown action type: {actionType}"⟩

/-- The dispatch agrees with what the server advertises: an action is refused as unknown
exactly when its type is not one of `action_types()`, and an accepted action is the variant
its type names. -/
theorem tryFrom_agrees_with_actionTypes (decoders : Decoders C K R) (action : Action) :
    (tryFrom decoders action = .error ⟨.invalidArgument, "Unknown action type: " ++ action.type⟩ ↔
        action.type ∉ actionTypes.map ActionType.type) ∧
      ∀ flightAction, tryFrom decoders action = .ok flightAction → flightAction.type = action.type := by
  rcases action with ⟨actionType, body⟩
  dsimp only [tryFrom, createGraphFromFileConfigTryFrom, computeConfigTryFrom,
    relabelConfigTryFrom, fromSliceMapErr]
  split
  case h_2 => exact ⟨iff_of_false (fun h => nomatch h) (by decide), fun _ h => by cases h; rfl⟩
  case h_5 notCreate notList notCompute notRelabel =>
    refine ⟨iff_of_true (congrArg (Except.error ∘ Status.mk _) (String.append_empty _)) ?_,
      fun _ h => nomatch h⟩
    simp only [actionTypes, List.map_cons, List.map_nil, List.mem_cons, List.mem_singleton,
      List.not_mem_nil]
    tauto
  all_goals
    refine ⟨iff_of_false ?_ (by decide), ?_⟩
  · cases decoders.create body <;> exact fun h => nomatch h
  · cases decoders.create body <;> rintro _ ⟨⟩
    rfl
  · cases decoders.compute body <;> exact fun h => nomatch h
  · cases decoders.compute body <;> rintro _ ⟨⟩
    rfl
  · cases decoders.relabel body <;> exact fun h => nomatch h
  · cases decoders.relabel body <;> rintro _ ⟨⟩
    rfl

end FlightAction

/-- `arrow_flight`'s `DescriptorType`: `UNKNOWN = 0`, `PATH = 1`, `CMD = 2`. -/
inductive DescriptorType where
  | unknown
  | path
  | cmd
  deriving DecidableEq, Repr

/-- `DescriptorType::from_i32`. -/
def DescriptorType.fromI32 : Int → Option DescriptorType
  | 0 => some .unknown
  | 1 => some .path
  | 2 => some .cmd
  | _ => none

def DescriptorType.debug : DescriptorType → String
  | .unknown => "Unknown"
  | .path => "Path"
  | .cmd => "Cmd"

structure FlightDescriptor where
  type : Int
  cmd : List UInt8

/-- `CreateGraphCommand::try_from(descriptor)`, with `decode` its `serde_json::from_slice`. -/
def createGraphCommandTryFrom {G : Type} (decode : List UInt8 → Except String G)
    (descriptor : FlightDescriptor) : Except Status G :=
  match DescriptorType.fromI32 descriptor.type with
  | none =>
    let type := descriptor.type
    throw ⟨.invalidArgument, s!"unsupported descriptor type: {type}"⟩
  | some .cmd => fromSliceMapErr decode descriptor.cmd
  | some descriptorType =>
    let got := descriptorType.debug
    throw ⟨.invalidArgument, s!"Expected command, got {got}"⟩

theorem DescriptorType.fromI32_eq_none {type : Int} (out : type < 0 ∨ 2 < type) :
    fromI32 type = none := by
  unfold fromI32
  split <;> simp_all

/-- A `CreateGraphCommand` comes only from a `CMD` descriptor, and is then what `serde_json`
decodes from its `cmd` bytes; a `CMD` descriptor whose bytes do not decode is refused with
`Internal` and the JSON error, and every other descriptor type with `InvalidArgument`: the
known types `UNKNOWN` and `PATH` by name, any other number as unsupported. -/
theorem createGraphCommandTryFrom_accepts_only_cmd {G : Type}
    (decode : List UInt8 → Except String G) (descriptor : FlightDescriptor) :
    (∀ command, createGraphCommandTryFrom decode descriptor = .ok command ↔
      descriptor.type = 2 ∧ decode descriptor.cmd = .ok command) ∧
    (∀ error, descriptor.type = 2 → decode descriptor.cmd = .error error →
      createGraphCommandTryFrom decode descriptor = .error ⟨.internal, "JsonError: " ++ error⟩) ∧
    (descriptor.type = 0 → createGraphCommandTryFrom decode descriptor =
      .error ⟨.invalidArgument, "Expected command, got Unknown"⟩) ∧
    (descriptor.type = 1 → createGraphCommandTryFrom decode descriptor =
      .error ⟨.invalidArgument, "Expected command, got Path"⟩) ∧
    (descriptor.type < 0 ∨ 2 < descriptor.type → createGraphCommandTryFrom decode descriptor =
      .error ⟨.invalidArgument, "unsupported descriptor type: " ++ toString descriptor.type⟩) := by
  rcases descriptor with ⟨type, cmd⟩
  dsimp only
  have decoded : type = 2 → createGraphCommandTryFrom decode ⟨type, cmd⟩ =
      fromSliceMapErr decode cmd := by rintro rfl; rfl
  have unknown : type = 0 → createGraphCommandTryFrom decode ⟨type, cmd⟩ =
      .error ⟨.invalidArgument, "Expected command, got Unknown"⟩ := by rintro rfl; rfl
  have path : type = 1 → createGraphCommandTryFrom decode ⟨type, cmd⟩ =
      .error ⟨.invalidArgument, "Expected command, got Path"⟩ := by rintro rfl; rfl
  have unsupported : type < 0 ∨ 2 < type → createGraphCommandTryFrom decode ⟨type, cmd⟩ =
      .error ⟨.invalidArgument, "unsupported descriptor type: " ++ toString type⟩ := fun out => by
    simp only [createGraphCommandTryFrom, DescriptorType.fromI32_eq_none out]
    exact congrArg (Except.error ∘ Status.mk _) (String.append_empty _)
  refine ⟨fun command => ?_, fun error two bad => ?_, unknown, path, unsupported⟩
  · by_cases two : type = 2
    · rw [decoded two, fromSliceMapErr]
      cases decode cmd <;> simp [Except.mapError, two]
    · refine iff_of_false (fun accepted => ?_) fun ⟨two', _⟩ => two two'
      rcases (by omega : type = 0 ∨ type = 1 ∨ type < 0 ∨ 2 < type) with zero | one | out
      · exact nomatch (unknown zero).symm.trans accepted
      · exact nomatch (path one).symm.trans accepted
      · exact nomatch (unsupported out).symm.trans accepted
  · rw [decoded two, fromSliceMapErr, bad]
    exact congrArg (Except.error ∘ Status.mk _) (String.append_empty _)

end GraphKernels.Server
