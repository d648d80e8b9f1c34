import StrongLL.Grammar.Basic

/-!
# StrongLL.Parser.Tree

Concrete syntax trees: the rule that was invoked, and what it consumed and invoked in input order.
-/

namespace StrongLL

inductive TreeNode where
  | token (t : Token)
  | tree (rule : RuleId) (children : List TreeNode)
deriving Inhabited, Repr

structure ParseTree where
  rule : RuleId
  children : List TreeNode
deriving Repr

namespace TreeNode

mutual

def tokens : TreeNode → List Token
  | token t => [t]
  | tree _ children => tokensOfAll children

def tokensOfAll : List TreeNode → List Token
  | [] => []
  | n :: rest => n.tokens ++ tokensOfAll rest

end

end TreeNode

namespace ParseTree

def node (t : ParseTree) : TreeNode := .tree t.rule t.children

def tokens (t : ParseTree) : List Token := t.node.tokens

def tokenCount (t : ParseTree) : Nat := t.tokens.length

/-- The trees of a rule directly below a tree. -/
def subtrees (t : ParseTree) (rule : RuleId) : List ParseTree :=
  t.children.filterMap fun
    | .tree r children => if r = rule then some ⟨r, children⟩ else none
    | .token _ => none

end ParseTree

end StrongLL
