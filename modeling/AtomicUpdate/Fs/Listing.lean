import AtomicUpdate.Fs.Lookup

/-! What there is to see below a directory. One that may not be listed shows no entries, and one
that may not be searched shows no more of them than their names and kinds. -/
namespace AtomicUpdate

def Node.veiled : Node → Node
  | .file _ mode => .file [] mode
  | .link _ => .link []
  | node => node

namespace Fs

def seenIn (fs : Fs) (d : Ino) (node : Node) : Node :=
  if fs.permits d .search && (!node.isFile || node.permits .read) then node else node.veiled

def entriesBelow (fs : Fs) : Nat → Ino → List (Path × Node)
  | 0, _ => []
  | depth + 1, d =>
      match fs.node? d with
      | some (.dir entries ..) =>
          if !fs.permits d .read then []
          else entries.entries.flatMap fun (n, i) =>
            match fs.node? i with
            | some node =>
                let below := if fs.permits d .search then fs.entriesBelow depth i else []
                (n, fs.seenIn d node) :: below.map fun (p, node) => (n ++ Path.slash :: p, node)
            | none => []
      | _ => []

def tree (fs : Fs) (p : Path) : List (Path × Node) :=
  match fs.lookup p with
  | .ok d => fs.entriesBelow (fs.nodes.size + 1) d
  | .error _ => []

end Fs
end AtomicUpdate
