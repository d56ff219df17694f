import MonadExecution.Ethereum.State

/-!
# The call tracer

`CallTracer` keeps one frame for every call and self-destruct of a transaction, in a flat list in the
order in which they start. `to_json` rebuilds the tree from that list and the depths of the frames, and the
position of a log comes from a stack of counters. `Calls` is what one frame issues, and the three views of
it below (its callbacks, its frames in preorder, its tree) are shown to be what the tracer makes of it.
-/

namespace MonadExecution.CallTracer

open Ethereum List

/-! ## Frames -/

/-- `evmc_call_kind`. -/
inductive CallKind
  | call | delegatecall | callcode | create | create2 | eofcreate
  deriving DecidableEq

inductive CallType
  | call | delegatecall | callcode | create | create2 | selfdestruct
  deriving DecidableEq

inductive StatusCode
  | success | failure | revert | other (code : Int)
  deriving DecidableEq

structure CallFrame where
  type : CallType
  flags : BitVec 32
  fromAddr : Address
  toAddr : Option Address
  value : Nat
  gas : Nat
  gasUsed : Nat := 0
  input : Bytes := []
  output : Bytes := []
  status : StatusCode
  depth : Nat
  logs : Option (List (Log × Nat)) := some []

structure Message where
  kind : CallKind
  flags : BitVec 32
  depth : Nat
  gas : Int
  recipient : Address
  sender : Address
  input : Bytes
  value : Nat
  codeAddress : Address

structure Result where
  statusCode : StatusCode
  gasLeft : Int
  output : Bytes
  createAddress : Address

/-- What the tracer reads of the transaction; `hash` is the hash of its encoding. -/
structure Transaction where
  gasLimit : Nat
  hash : Bytes32

/-- `static_cast<uint64_t>` of a signed integer. -/
def asUint64 (x : Int) : Nat := (x % 2 ^ 64).toNat

/-- The type of a frame; `EVMC_EOFCREATE` aborts. -/
def CallKind.type : CallKind → Option CallType
  | .call => some .call
  | .delegatecall => some .delegatecall
  | .callcode => some .callcode
  | .create => some .create
  | .create2 => some .create2
  | .eofcreate => none

variable (tx : Transaction)

/-- The frame `on_enter` appends. -/
def enterFrame (msg : Message) (type : CallType) : CallFrame where
  type
  flags := msg.flags
  fromAddr := if msg.kind = .delegatecall ∨ msg.kind = .callcode then msg.recipient else msg.sender
  toAddr := if msg.kind = .call then some msg.recipient
    else if msg.kind = .delegatecall ∨ msg.kind = .callcode then some msg.codeAddress
    else none
  value := msg.value
  gas := if msg.depth = 0 then tx.gasLimit else asUint64 msg.gas
  input := msg.input
  status := .failure
  depth := msg.depth

/-- What `on_exit` makes of the frame. -/
def exitFrame (res : Result) (f : CallFrame) : CallFrame :=
  { f with
    gasUsed := f.gas - asUint64 res.gasLeft
    output := if res.statusCode = .success ∨ res.statusCode = .revert then res.output else f.output
    status := res.statusCode
    toAddr :=
      if f.type = .create ∨ f.type = .create2 then
        if res.createAddress = 0 then none else some res.createAddress
      else f.toAddr }

def selfDestructFrame (fromAddr toAddr : Address) (balance depth : Nat) : CallFrame where
  type := .selfdestruct
  flags := 0
  fromAddr
  toAddr := some toAddr
  value := balance
  gas := 0
  status := .success
  depth

/-! ## The callbacks

A failed assertion is `none`. -/

structure Tracer where
  frames : List CallFrame := []
  last : List Nat := []
  positions : List Nat := [0]

inductive Event
  | enter (msg : Message)
  | exit (res : Result)
  | log (log : Log)
  | selfDestruct (fromAddr toAddr : Address) (balance : Nat)

namespace Tracer

variable (t : Tracer)

def onEnter (msg : Message) : Option Tracer := do
  let p ← t.positions.head?
  let type ← msg.kind.type
  return {
    frames := t.frames ++ [enterFrame tx msg type]
    last := t.frames.length :: t.last
    positions := 0 :: (p + 1) :: t.positions.tail }

def onExit (res : Result) : Option Tracer := do
  let i ← t.last.head?
  let _ ← t.positions.head?
  let f ← t.frames[i]?
  guard (asUint64 res.gasLeft ≤ f.gas)
  return ⟨t.frames.set i (exitFrame res f), t.last.tail, t.positions.tail⟩

def onLog (log : Log) : Option Tracer := do
  let i ← t.last.head?
  let p ← t.positions.head?
  let f ← t.frames[i]?
  let logs ← f.logs
  return { t with frames := t.frames.set i { f with logs := some (logs ++ [(log, p)]) } }

def onSelfDestruct (fromAddr toAddr : Address) (balance : Nat) : Option Tracer := do
  let i ← t.last.head?
  let p ← t.positions.head?
  let parent ← t.frames[i]?
  return { t with
    frames := t.frames ++ [selfDestructFrame fromAddr toAddr balance (parent.depth + 1)]
    positions := (p + 1) :: t.positions.tail }

def step : Event → Option Tracer
  | .enter msg => t.onEnter tx msg
  | .exit res => t.onExit res
  | .log l => t.onLog l
  | .selfDestruct a b v => t.onSelfDestruct a b v

def run (events : List Event) : Option Tracer := events.foldlM (step tx) t

end Tracer

/-! ## The JSON of the frames -/

/-- The object of one frame, with its fields as values instead of their hexadecimal text. -/
inductive Json
  | node (type : String) (fromAddr : Address) (toAddr : Option Address) (value gas gasUsed : Nat)
      (input output : Bytes) (error : Option String) (depth : Nat) (calls : List Json)

def CallType.toString : CallType → String
  | .call => "CALL"
  | .delegatecall => "DELEGATECALL"
  | .callcode => "CALLCODE"
  | .create => "CREATE"
  | .create2 => "CREATE2"
  | .selfdestruct => "SELFDESTRUCT"

def CallFrame.toJson (f : CallFrame) (calls : List Json) : Json :=
  .node (if f.type = .call ∧ f.flags.getLsbD 0 then "STATICCALL" else f.type.toString)
    f.fromAddr f.toAddr f.value f.gas f.gasUsed f.input f.output
    (if f.status = .revert then some "REVERT" else if f.status ≠ .success then some "ERROR" else none)
    f.depth calls

/-- The loop of `to_json_helper` for a frame of the given depth: the calls it pushes, and the frames from
the position it leaves on. The fuel bounds the number of frames. -/
def toJsonHelper : Nat → Nat → List CallFrame → List Json × List CallFrame
  | fuel + 1, depth, f :: rest =>
    if depth < f.depth then
      let sub := toJsonHelper fuel f.depth rest
      let next := toJsonHelper fuel depth sub.2
      (f.toJson sub.1 :: next.1, next.2)
    else ([], f :: rest)
  | _, _, rest => ([], rest)

def Tracer.toJson (t : Tracer) : Option (Bytes32 × Json) :=
  match t.frames with
  | [] => none
  | f :: rest => if f.depth = 0 then some (tx.hash, f.toJson (toJsonHelper rest.length f.depth rest).1) else none

/-! ## What a frame issues -/

/-- The calls, logs and self-destructs issued directly by one frame, in order. -/
inductive Calls
  | done
  | call (msg : Message) (body : Calls) (res : Result) (rest : Calls)
  | log (log : Log) (rest : Calls)
  | selfDestruct (fromAddr toAddr : Address) (balance : Nat) (rest : Calls)

namespace Calls

def events : Calls → List Event
  | done => []
  | call msg body res rest => .enter msg :: (body.events ++ .exit res :: rest.events)
  | log l rest => .log l :: rest.events
  | selfDestruct a b v rest => .selfDestruct a b v :: rest.events

/-- The number of frames issued directly. -/
def children : Calls → Nat
  | done => 0
  | call _ _ _ rest | selfDestruct _ _ _ rest => 1 + rest.children
  | log _ rest => rest.children

/-- The logs emitted directly, each with the number of frames issued before it. -/
def logs (p : Nat) : Calls → List (Log × Nat)
  | done => []
  | call _ _ _ rest | selfDestruct _ _ _ rest => rest.logs (p + 1)
  | log l rest => (l, p) :: rest.logs p

/-- The finished frame of a call: entered, with the logs of its body, and left. -/
def frame (msg : Message) (body : Calls) (res : Result) : CallFrame :=
  exitFrame res { enterFrame tx msg (msg.kind.type.getD .call) with logs := some (body.logs 0) }

/-- All frames below a frame, in preorder; those it issues itself have depth `d`. -/
def frames (d : Nat) : Calls → List CallFrame
  | done => []
  | call msg body res rest => frame tx msg body res :: (body.frames (d + 1) ++ rest.frames d)
  | log _ rest => rest.frames d
  | selfDestruct a b v rest => selfDestructFrame a b v d :: rest.frames d

/-- The call tree: one object for each call and self-destruct, in order of issue. -/
def tree (d : Nat) : Calls → List Json
  | done => []
  | call msg body res rest => (frame tx msg body res).toJson (body.tree (d + 1)) :: rest.tree d
  | log _ rest => rest.tree d
  | selfDestruct a b v rest => (selfDestructFrame a b v d).toJson [] :: rest.tree d

/-- The messages have the depth of their nesting and a supported kind, and no call returns more gas than
its frame has. -/
def Nested (d : Nat) : Calls → Prop
  | done => True
  | call msg body res rest =>
    msg.depth = d ∧ msg.kind ≠ .eofcreate ∧
      asUint64 res.gasLeft ≤ (if msg.depth = 0 then tx.gasLimit else asUint64 msg.gas) ∧
      body.Nested (d + 1) ∧ rest.Nested d
  | log _ rest | selfDestruct _ _ _ rest => rest.Nested d

end Calls

/-! ## The frames of a run -/

theorem type_of_supported {k : CallKind} (h : k ≠ .eofcreate) : ∃ t, k.type = some t := by
  cases k <;> simp_all [CallKind.type]

open Calls Tracer

/-- What the callbacks of a body leave, when the frame that issues it is `f`: `f` has got the logs, and
the frames below follow at the end of the list. -/
theorem run_events (c : Calls) : ∀ {d : Nat}, c.Nested tx d → ∀ (pre mid : List CallFrame) (f : CallFrame)
    (logs : List (Log × Nat)) (last : List Nat) (p : Nat) (ps : List Nat), f.depth + 1 = d →
    f.logs = some logs → run tx ⟨pre ++ f :: mid, pre.length :: last, p :: ps⟩ c.events =
      some ⟨pre ++ { f with logs := some (logs ++ c.logs p) } :: (mid ++ c.frames tx d),
        pre.length :: last, (p + c.children) :: ps⟩ := by
  induction c with
  | done =>
    intro d _ pre mid f logs last p ps _ hlogs
    simp [run, events, Calls.logs, Calls.frames, children, ← hlogs]
  | call msg body res rest ihb ihr =>
    intro d h pre mid f logs last p ps hd hlogs
    obtain ⟨hdp, hkind, hgas, hb, hr⟩ := h
    obtain ⟨type, htype⟩ := type_of_supported hkind
    let g := enterFrame tx msg type
    have enter : onEnter tx ⟨pre ++ f :: mid, pre.length :: last, p :: ps⟩ msg =
        some ⟨(pre ++ f :: mid) ++ g :: [], (pre ++ f :: mid).length :: pre.length :: last, 0 :: (p + 1) :: ps⟩ := by
      simp [onEnter, htype, g]
    have exit (l : List CallFrame) : onExit ⟨(pre ++ f :: mid) ++ { g with logs := some (body.logs 0) } :: l,
          (pre ++ f :: mid).length :: pre.length :: last, (0 + body.children) :: (p + 1) :: ps⟩ res =
        some ⟨pre ++ f :: (mid ++ frame tx msg body res :: l), pre.length :: last, (p + 1) :: ps⟩ := by
      have : asUint64 res.gasLeft ≤ g.gas := hgas
      simp [onExit, frame, htype, this, g, set_append]
    have body_run := ihb hb (pre ++ f :: mid) [] g [] (pre.length :: last) 0 ((p + 1) :: ps)
      (congrArg (· + 1) hdp) rfl
    have rest_run := ihr hr pre (mid ++ frame tx msg body res :: body.frames tx (d + 1)) f logs last
      (p + 1) ps hd hlogs
    simp only [run, events, foldlM_cons, foldlM_append, step] at *
    simp only [enter, Option.bind_eq_bind, Option.bind_some, body_run, exit, nil_append, rest_run]
    simp [Calls.logs, Calls.frames, children, Nat.add_assoc]
  | log l rest ih =>
    intro d h pre mid f logs last p ps hd hlogs
    have := ih h pre mid { f with logs := some (logs ++ [(l, p)]) } _ last p ps hd rfl
    simp only [run, events, foldlM_cons, step] at *
    simp [onLog, hlogs, this, Calls.logs, Calls.frames, children, set_append]
  | selfDestruct a b v rest ih =>
    intro d h pre mid f logs last p ps hd hlogs
    have := ih h pre (mid ++ [selfDestructFrame a b v d]) f logs last (p + 1) ps hd hlogs
    simp only [run, events, foldlM_cons, step] at *
    simp [onSelfDestruct, hd, this, Calls.logs, Calls.frames, children, Nat.add_assoc]

/-! ## The tree of the frames -/

theorem depth_head {d : Nat} {rest : List CallFrame} (hrest : ∀ f ∈ rest.head?, f.depth < d) (c : Calls)
    (h : c.Nested tx d) : ∀ f ∈ (c.frames tx d ++ rest).head?, f.depth < d + 1 := by
  induction c with
  | done => exact fun f hf => Nat.lt_succ_of_lt (hrest f hf)
  | call msg body res rest' _ _ => simp [Calls.frames, frame, exitFrame, enterFrame, h.1]
  | log l rest' ih => exact ih h
  | selfDestruct a b v rest' _ => simp [Calls.frames, selfDestructFrame]

theorem toJsonHelper_stops (fuel : Nat) {d : Nat} {rest : List CallFrame}
    (hrest : ∀ f ∈ rest.head?, f.depth < d + 1) : toJsonHelper fuel d rest = ([], rest) := by
  cases fuel with
  | zero => cases rest <;> rfl
  | succ fuel =>
    cases rest with
    | nil => rfl
    | cons f rest => exact if_neg (Nat.not_lt.mpr (Nat.le_of_lt_succ (hrest f rfl)))

/-- The recursion over the flat list stops exactly where the frames of a body end. -/
theorem toJsonHelper_frames (c : Calls) : ∀ (fuel : Nat) {d : Nat} {rest : List CallFrame},
    c.Nested tx (d + 1) → (∀ f ∈ rest.head?, f.depth < d + 1) →
    (c.frames tx (d + 1)).length + rest.length ≤ fuel →
    toJsonHelper fuel d (c.frames tx (d + 1) ++ rest) = (c.tree tx (d + 1), rest) := by
  induction c with
  | done => exact fun fuel _ _ _ hrest _ => toJsonHelper_stops fuel hrest
  | call msg body res rest' ihb ihr =>
    intro fuel d rest h hrest hfuel
    obtain ⟨hdp, -, -, hb, hr⟩ := h
    have depth : (frame tx msg body res).depth = d + 1 := hdp
    simp only [Calls.frames, length_cons, length_append] at hfuel
    obtain ⟨fuel, rfl⟩ : ∃ n, fuel = n + 1 := ⟨fuel - 1, by omega⟩
    have sub := ihb fuel hb (depth_head tx hrest rest' hr) (by simp only [length_append]; omega)
    have next := ihr fuel hr hrest (by omega)
    simp [Calls.frames, tree, toJsonHelper, depth, sub, next]
  | log l rest' ih => exact ih
  | selfDestruct a b v rest' ih =>
    intro fuel d rest h hrest hfuel
    simp only [Calls.frames, length_cons] at hfuel
    obtain ⟨fuel, rfl⟩ : ∃ n, fuel = n + 1 := ⟨fuel - 1, by omega⟩
    have leaf := toJsonHelper_stops fuel (depth_head tx hrest rest' h)
    have next := ih fuel h hrest (by omega)
    simp [Calls.frames, tree, toJsonHelper, selfDestructFrame, leaf, next]

/-- After the callbacks of an outermost call, the frames are its preorder, each with the logs it emitted
at the number of frames it had issued, and the JSON is its tree. -/
theorem toJson_tree (msg : Message) (body : Calls) (res : Result) (h : (call msg body res .done).Nested tx 0) :
    ∃ t, run tx {} (call msg body res .done).events = some t ∧ t.frames = frame tx msg body res :: body.frames tx 1 ∧
      t.toJson tx = some (tx.hash, (frame tx msg body res).toJson (body.tree tx 1)) := by
  obtain ⟨hdp, hkind, hgas, hb, -⟩ := h
  obtain ⟨type, htype⟩ := type_of_supported hkind
  let g := enterFrame tx msg type
  have body_run := run_events tx body hb [] [] g [] [] 0 [1] (congrArg (· + 1) hdp) rfl
  refine ⟨⟨frame tx msg body res :: body.frames tx 1, [], [1]⟩, ?_, rfl, ?_⟩
  · have : asUint64 res.gasLeft ≤ g.gas := hgas
    simp only [run, events, foldlM_cons, foldlM_append, step] at *
    simp_all [onEnter, onExit, g, frame]
  · have depth : (frame tx msg body res).depth = 0 := hdp
    have helper : toJsonHelper (body.frames tx 1).length 0 (body.frames tx 1 ++ []) = _ :=
      toJsonHelper_frames tx body _ hb (by simp) (by simp)
    rw [append_nil] at helper
    simp [Tracer.toJson, depth, helper]

/-- A contract that is created, and destroys itself between two logs. -/
def created : Calls := .log ⟨3, [], []⟩ (.selfDestruct 3 4 7 (.log ⟨3, [1], []⟩ .done))

/-- A call that creates it, gives its own balance away and makes a static call that reverts, with logs in
between. -/
def nested : Calls :=
  .log ⟨2, [], []⟩ <| .call ⟨.create, 0, 1, 50, 0, 2, [], 7, 0⟩ created ⟨.success, 20, [], 3⟩ <|
  .log ⟨2, [1], []⟩ <| .selfDestruct 2 4 5 <| .log ⟨2, [2], []⟩ <|
  .call ⟨.call, 1, 1, 10, 6, 2, [9], 0, 6⟩ .done ⟨.revert, 4, [8], 0⟩ .done

theorem toJson_tree_nested : ∃ t,
    run ⟨100, 77⟩ {} (call ⟨.call, 0, 0, 90, 2, 1, [], 5, 2⟩ nested ⟨.success, 30, [], 0⟩ .done).events = some t ∧
    t.frames.map (fun f => (f.depth, f.logs.map (·.map Prod.snd))) =
      [(0, some [0, 1, 2]), (1, some [0, 1]), (2, some []), (1, some []), (1, some [])] ∧
    t.toJson ⟨100, 77⟩ = some (77, .node "CALL" 1 (some 2) 5 100 70 [] [] none 0
      [.node "CREATE" 2 (some 3) 7 50 30 [] [] none 1
        [.node "SELFDESTRUCT" 3 (some 4) 7 0 0 [] [] none 2 []],
      .node "SELFDESTRUCT" 2 (some 4) 5 0 0 [] [] none 1 [],
      .node "STATICCALL" 2 (some 6) 0 10 6 [9] [8] (some "REVERT") 1 []]) := by
  obtain ⟨t, ht, hframes, hjson⟩ := toJson_tree ⟨100, 77⟩ ⟨.call, 0, 0, 90, 2, 1, [], 5, 2⟩ nested
    ⟨.success, 30, [], 0⟩ (by simp [nested, created, Nested, asUint64])
  refine ⟨t, ht, ?_, hjson.trans rfl⟩
  rw [hframes]
  rfl

/-- A call that emits one log. -/
def oneLog : Calls := .call ⟨.call, 0, 0, 0, 0, 0, [], 0, 0⟩ (.log ⟨0, [], []⟩ .done) ⟨.success, 0, [], 0⟩ .done

/-- The JSON of a frame has no logs: with and without the log it is the same. -/
theorem toJson_without_log : ∃ t u, run ⟨0, 0⟩ {} oneLog.events = some t ∧
    run ⟨0, 0⟩ {} (oneLog.events.eraseIdx 1) = some u ∧ t.frames.map (·.logs) = [some [(⟨0, [], []⟩, 0)]] ∧
    u.frames.map (·.logs) = [some []] ∧ t.toJson ⟨0, 0⟩ = u.toJson ⟨0, 0⟩ := ⟨_, _, rfl, rfl, rfl, rfl, rfl⟩

end MonadExecution.CallTracer
