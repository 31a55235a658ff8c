import SyslogNg.Pipeline.Network

/-!
# Wiring of log statements

`log_center_init_pipe_line` and `log_center_init` in `lib/center.c`, with the references to
rules and destinations already looked up. Rules are lists of processing elements; every
reference gets instances of its own.
-/
namespace SyslogNg.Pipeline

/-- What may stand in a log statement before its nested log blocks. -/
inductive Item (V D S : Type*)
  | source (name : S)
  | filter (rule : List (ProcessPipe V))
  | parser (rule : List (ProcessPipe V))
  | rewrite (rule : List (ProcessPipe V))
  | destination (drivers : List D)

structure ConnFlags where
  catchAll : Bool := false
  fallback : Bool := false
  final : Bool := false
  flowControl : Bool := false

/-- A log statement or a nested log block. -/
inductive Conn (V D S : Type*)
  | mk (items : List (Item V D S)) (forks : List (Conn V D S)) (flags : ConnFlags)

variable {V D S : Type*}

def Conn.flags : Conn V D S → ConnFlags
  | ⟨_, _, flags⟩ => flags

namespace Item

def isSource : Item V D S → Bool
  | .source _ => true
  | _ => false

/-- `log_center_finalize_initialization_of_process_rule` on `path_changes_the_message`; only the
head of a filter rule is looked at. -/
def changesMessage : Item V D S → Bool
  | .filter (head :: _) => head.clone
  | .parser (_ :: _) | .rewrite (_ :: _) => true
  | _ => false

/-- The pipes of an item in front of what follows. -/
def append (next : Pipe V D) : Item V D S → Pipe V D
  | .source _ => next
  | .filter rule | .parser rule | .rewrite rule => rule.foldr .process next
  | .destination drivers => .mpx (.cons ⟨false, false, false, false⟩ (.group drivers) .nil) next

end Item

def Hops.hardFlowControl : Hops V D → Bool
  | .nil => false
  | .cons flags _ rest => flags.hardFlowControl || rest.hardFlowControl

mutual

/-- `log_center_init_pipe_line`, the first pipe with its flags. -/
def Conn.initPipeLine : Conn V D S → Bool → Bool → Option (PipeFlags × Pipe V D)
  | ⟨items, forks, flags⟩, toplevel, flowControlledParent =>
    if (!toplevel && flags.catchAll) || (items.any Item.isSource && (!toplevel || flags.catchAll))
    then none
    else
      (initForks forks flags.flowControl).bind fun hops =>
        let tail := if hops.isNil then .null else .mpx hops .null
        let first := items.foldr (fun item next => item.append next) tail
        if first.isNull then none
        else some (⟨flags.fallback, flags.final, items.any Item.changesMessage,
          flags.flowControl || hops.hardFlowControl || flowControlledParent⟩, first)

/-- The next hops of the multiplexer for the nested log blocks. -/
def initForks : List (Conn V D S) → Bool → Option (Hops V D)
  | [], _ => some .nil
  | conn :: forks, flowControl =>
    (conn.initPipeLine false flowControl).bind fun first =>
      (initForks forks flowControl).map fun hops => .cons first.1 first.2 hops

end

/-- How often a statement adds itself to the multiplexer of a source. -/
def Conn.references [DecidableEq S] (src : S) : Conn V D S → ℕ
  | ⟨items, _, flags⟩ =>
    if flags.catchAll then 1
    else items.countP fun
      | .source name => name = src
      | _ => false

end SyslogNg.Pipeline
