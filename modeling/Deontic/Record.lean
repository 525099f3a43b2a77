import Deontic.Binary64.Fixed
import Deontic.Binary64.Shortest
import Deontic.Tree.Printer

/-! Records of what a run does.  A record has a level and a source, and one line of text; weights in
records have four places. -/

namespace Deontic

/-- One thing worth noting about a run. -/
inductive Record where
  | running (command : String)
  | unruled (norm : Tree)
  | discarded
  | kept (draws : Nat) (of : Int)
  | replaced (proposal : String) (weight : Binary64)
  | impossible
  | weighed (weight forth back ratio : Binary64) (accepted : Bool)
  | stepped (step : Nat) (state : String) (accepted : Bool)
  | finished (accepted : Nat) (of : Int)
  deriving Inhabited

namespace Record

/-- Whether a record is only for those who want every detail. -/
def isDetail : Record → Bool
  | kept .. => false
  | finished .. => false
  | _ => true

def source : Record → String
  | running _ => "normtree.__main__"
  | unruled _ => "normtree.tasks"
  | discarded => "normtree.tasks"
  | kept .. => "normtree.tasks"
  | replaced .. => "normtree.moves"
  | impossible => "normtree.gen.inference"
  | weighed .. => "normtree.gen.inference"
  | stepped .. => "normtree.moves"
  | finished .. => "normtree.moves"

def verdict (b : Bool) : String := if b then "True" else "False"

def text : Record → String
  | running command => "Running " ++ command
  | unruled norm => "No zone handler for " ++ norm.pretty ++ "; using uniform zones"
  | discarded => "Discarded a draw inconsistent with the observation"
  | kept draws of => "Kept " ++ toString draws ++ " of " ++ toString of ++ " constrained draws"
  | replaced proposal weight =>
    "Subtree replacement " ++ proposal ++ ": weight=" ++ weight.toFixed 4
  | impossible => "Rejected: proposed state has zero probability"
  | weighed weight forth back ratio accepted =>
    "weight=" ++ weight.toFixed 4 ++ " q_fwd=" ++ forth.toFixed 4 ++ " q_bwd=" ++
      back.toFixed 4 ++ " alpha=" ++ ratio.toFixed 4 ++ " accepted=" ++ verdict accepted
  | stepped step state accepted =>
    "step " ++ toString step ++ ": " ++ state ++ " accepted=" ++ verdict accepted
  | finished accepted of =>
    "Accepted " ++ toString accepted ++ " of " ++ toString of ++ " subtree-replacement moves"

def line (record : Record) : String :=
  (if record.isDetail then "DEBUG " else "INFO ") ++ record.source ++ ": " ++ record.text

end Record

end Deontic
