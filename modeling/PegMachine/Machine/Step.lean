import PegMachine.Machine.State

namespace PegMachine.Machine

/-- The outermost run, once the runs inside of it are given up. Attempts made inside count. -/
def outermost (run : Run) : List Run → Run
  | [] => run
  | caller :: callers => outermost (caller.reach run.furthest) callers

/-- Stops the machine with an error that nothing recovers from. -/
def abort (s : State) (e : Error) : Progress :=
  let run := outermost s.run s.callers
  .stop { s with run := run, callers := [] } (.error e run.stack.rootCursor)

/-- The failure that a payload ends all runs with. Each run reports it from where it stands, so the
outermost one decides about the position. -/
def raise? (input : Input) (payload : Payload) (run : Run) : List Run → Option (Failure × Run)
  | [] => (run.position? input).map fun position =>
    (failureAt input .payload payload position, run)
  | caller :: callers =>
    match run.position? input with
    | none => none
    | some _ => raise? input payload (caller.reach run.furthest) callers

def raise (env : Env) (s : State) (payload : Payload) : Progress :=
  match raise? env.input payload s.run s.callers with
  | none => .stop s .fault
  | some (f, run) => .stop { s with run := run, callers := [] } (.error (.failure f) run.stack.rootCursor)

/-- Goes on with the run that waited for an embedded one, after a change to its top frame. -/
def resume (s : State) (caller : Run) (callers : List Run) (change : Frame → Frame) : Progress :=
  let caller := caller.reach s.run.furthest
  .next { s with run := { caller with stack := caller.stack.updateTop change }, callers := callers }

/-- Ends a run whose bottom frame is complete. It matched unless the frame failed or the run has
to consume all of the input and did not. -/
def finish (env : Env) (s : State) (root : Frame) : Progress :=
  let s := s.trace (.finish (!root.failed) root.cursor)
  if root.failed || (s.run.exact && decide (root.cursor < env.input.size)) then
    match s.run.position? env.input with
    | none => .stop s .fault
    | some position =>
      match s.callers with
      | [] =>
        .stop s (.error (.failure (failureAt env.input .mismatch .nil position)) root.cursor)
      | caller :: callers => resume s caller callers Frame.fail
  else
    match s.callers with
    | [] => .stop s (.values root.output.reverse root.cursor)
    | caller :: callers => resume s caller callers (·.succeed root.cursor root.output)

/-- Folds the complete top frame into its parent. -/
def fold (env : Env) (s : State) (child parent : Frame) (below : List Frame) : Progress :=
  match Frame.fold? env.input child parent with
  | none => .stop s .fault
  | some parent =>
    .next ((s.withFrames (parent :: below)).trace
      (.pop child.kind.name (!parent.failed) parent.cursor))

def leaf (s : State) (top : Frame) (below : List Frame) (e : Expr) (attempt : Attempt) :
    Progress :=
  match attempt with
  | .fault => .stop s .fault
  | .mismatch =>
    let s := { s with run := s.run.reach top.cursor }.trace (.attempt false e.render)
    .next (s.withFrames (top.fail :: below))
  | .success value next =>
    let s := { s with run := s.run.reach top.cursor }.trace (.attempt true e.render)
    .next ({ s with run := s.run.reach next }.withFrames (top.succeed next [value] :: below))

def enter (s : State) (top : Frame) (below : List Frame) (kind : Kind)
    (items : List Expr) : Progress :=
  .next ((s.withFrames (Frame.enter kind top.cursor items :: top :: below)).trace
    (.push kind.name))

def embed (env : Env) (s : State) (top : Frame) (id : Option Nat) (main : Bytes) : Progress :=
  match id, env.family.grammar? id with
  | some id, some g =>
    match g.rule? main with
    | none => abort s (.undefined (g.undefined main []))
    | some _ =>
      match s.run.terms.inside? main with
      | .error _ => .stop s .fault
      | .ok terms =>
        let s := s.trace (.embed main)
        .next { s with
          run := Run.start id main false terms top.cursor
          callers := s.run :: s.callers }
  | _, _ => .stop s .fault

def custom (env : Env) (s : State) (id : Nat) : Progress :=
  let reply := env.host id (s.view env)
  let s := { s with
    run := { s.run with
      stack := reply.stack
      terms := { s.run.terms with settings := reply.settings } }
    snapshots := reply.snapshots.reverse ++ s.snapshots }
  match reply.verdict with
  | .done => .next s
  | .failed message => raise env s (.error message)
  | .fault => .stop s .fault

def act (env : Env) (s : State) (top : Frame) (below : List Frame) (a : Action) : Progress :=
  let s := s.trace (.action a.render)
  match a with
  | .insert values => .next (s.withFrames (top.capture values.reverse :: below))
  | .insertText text =>
    match env.input.span? top.cursor top.cursor with
    | none => .stop s .fault
    | some span => .next (s.withFrames (top.capture [Value.ofText text span] :: below))
  | .convert none => .stop s .fault
  | .convert (some f) =>
    match f top.output.head? with
    | .error message =>
      raise env (s.withFrames ({ top with output := top.output.tail } :: below)) (.error message)
    | .ok result =>
      .next (s.withFrames ({ top with output := result.toList ++ top.output.tail } :: below))
  | .modify f =>
    match top.output, f with
    | [], _ => .next s
    | _ :: _, none => .stop s .fault
    | last :: output, some f =>
      match f last with
      | .error message => raise env s (.error message)
      | .ok last => .next (s.withFrames ({ top with output := last :: output } :: below))
  | .note key datum =>
    match top.output with
    | [] => .next s
    | last :: output =>
      .next (s.withFrames ({ top with output := last.annotate key datum :: output } :: below))
  | .clear => .next (s.withFrames ({ top with output := [] } :: below))
  | .custom none => .stop s .fault
  | .custom (some id) => custom env s id
  | .throw datum => raise env s datum
  | .log args => .next { s with log := .message (Payload.renderLine args) :: s.log }
  | .unknown => abort s .unknownAction

/-- Evaluates the first pending item of the top frame. A reference is replaced by the expression of
its rule, a combinator gets a frame of its own, anything else acts on the top frame. -/
def evaluate (env : Env) (s : State) (top : Frame) (below : List Frame) : Progress :=
  match top.pending with
  | [] => .stop s .fault
  | .rule name :: rest =>
    match (s.grammar env).rule? name with
    | none => abort s (.undefined ((s.grammar env).undefined name []))
    | some e =>
      let s := s.trace (.rule name)
      .next (s.withFrames ({ top with pending := e :: rest } :: below))
  | e :: rest =>
    let top := { top with pending := rest }
    let s := s.withFrames (top :: below)
    match e with
    | .literal text => leaf s top below e (env.input.tryLiteral top.cursor text)
    | .pattern p => leaf s top below e (env.input.tryPattern top.cursor p)
    | .sequence items => enter s top below .sequence items
    | .choice items => enter s top below .choice items
    | .wrap name items => enter s top below (.wrap name) items
    | .hide items => enter s top below .hide items
    | .iterate kind item =>
      enter s top below (Kind.ofRepetition kind item top.cursor) [item]
    | .action a => act env s top below a
    | .embed id main => embed env s top id main
    | .rule _ | .missing => abort s .unknownExpression

/-- One step. The limit is looked at first, then the step counts. -/
def step (env : Env) (s : State) : Progress :=
  if 0 < s.run.terms.limit ∧ s.run.terms.limit ≤ s.steps then abort s (.limit s.run.terms.limit)
  else
    let s := { s with steps := s.steps + 1 }
    match s.run.stack.frames with
    | [] => abort s .emptyStack
    | top :: below =>
      if top.isComplete env.input.size then
        match below with
        | [] => finish env s top
        | parent :: below => fold env s top parent below
      else
        let top := top.restart
        evaluate env (s.withFrames (top :: below)) top below

end PegMachine.Machine
