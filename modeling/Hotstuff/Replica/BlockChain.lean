import Hotstuff.Replica.State

/-! The block store: lookup with fetching, branch tests and pruning. -/
namespace Hotstuff
namespace Replica
variable (S : Setup) (env : Env)

/-- `Config.Fetch`. The quorum function takes a reply only if it hashes to the request;
a cancelled call falls through to `BlockFromProto(nil)`, whose content is the genesis block. -/
def fetch (k : Nat) (h : Hash) : Option Block :=
  match (env.replies k h).find? (fun b => b.hash S = h) with
  | some b => some b
  | none => if env.canceled k then some genesis else none

def insertBlock (h : Hash) (b : Block) (s : Replica) : Replica :=
  { s with blocks := (h,b) :: s.blocks,
           blockAtHeight := (b.view,b) :: s.blockAtHeight.filter (fun e => e.1 ≠ b.view) }

def store (b : Block) (s : Replica) : Replica := s.insertBlock (b.hash S) b

def localGet (h : Hash) (s : Replica) : Option Block := s.blocks.lookup h

def get (h : Hash) (s : Replica) : Option Block × Replica :=
  match s.localGet h with
  | some b => (some b,s)
  | none => match fetch S env s.now h with
    | some b => (some b,s.tick.insertBlock h b)
    | none => (none,s.tick)

def extendsBranch : Nat → Block → Block → Replica → Bool × Replica
  | 0, _, _, s => (false,s.halt)
  | k+1, current, target, s =>
    if target.view < current.view then
      match get S env current.parent s with
      | (some b,s) => extendsBranch k b target s
      | (none,s) => (false,s)
    else (decide (current.hash S = target.hash S),s)

/-- The views on the committed chain down to the prune height, `none` if the walk does not end. -/
def committedViews (s : Replica) : Nat → View → List View → Option (List View)
  | 0, _, _ => none
  | k+1, h, acc =>
    if h < s.pruneHeight then some acc
    else match s.blockAtHeight.lookup h with
      | none => some acc
      | some b => match s.localGet b.parent with
        | none => some acc
        | some p => if p.view < s.pruneHeight then some acc
          else committedViews s k p.view (p.view :: acc)

/-- The stored heights in `(pruneHeight, height]` from the top down, less the committed ones. -/
def forkedBlocks (s : Replica) (height : View) (views : List View) : List Block :=
  let range := s.blockAtHeight.filter (fun e => s.pruneHeight < e.1 ∧ e.1 ≤ height ∧ e.1 ∉ views)
  (range.insertionSort (fun a b => b.1 ≤ a.1)).map Prod.snd

/-- `PruneToHeight` and the fork handler calls its caller makes on the result. -/
def pruneToHeight (height : View) (s : Replica) : Replica :=
  match s.committedViews env.fuel s.bExec.view [s.bExec.view] with
  | none => s.halt
  | some views =>
    { s with blockAtHeight := s.blockAtHeight.filter (fun e => ¬ (s.pruneHeight < e.1 ∧ e.1 ≤ height)),
             pruneHeight := height,
             log := ((s.forkedBlocks height views).map Effect.fork).reverse ++ s.log }

end Replica
end Hotstuff
