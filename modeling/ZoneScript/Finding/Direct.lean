import ZoneScript.Finding.Field

/-!
# Findings in the direct block
-/

namespace ZoneScript.Finding

/-- The family of a chain, rule or passthrough. -/
def directFamily (path : String) (entries : Node.Entries) : List Finding :=
  checked path "ipv" Lexical.directFamily entries

def directChain (path : String) (entries : Node.Entries) : List Finding :=
  keys path Keys.directChain "direct chain" entries
    ++ required path Keys.directChain "direct chain" entries
    ++ directFamily path entries ++ scalars path ["table", "chain"] entries

def directRule (path : String) (entries : Node.Entries) : List Finding :=
  keys path Keys.directRule "direct rule" entries
    ++ required path Keys.directRuleRequired "direct rule" entries
    ++ directFamily path entries ++ scalars path ["table", "chain", "args"] entries
    ++ priority path entries ++ loop path entries

def passthrough (path : String) (entries : Node.Entries) : List Finding :=
  keys path Keys.passthrough "passthrough" entries
    ++ required path Keys.passthroughRequired "passthrough" entries
    ++ directFamily path entries ++ scalar path "args" entries ++ loop path entries

/-! ## Rule groups -/

/-- The families of a rule group, one or a list of them. -/
def families (path : String) (entries : Node.Entries) : List Finding :=
  match Node.find? "ipv" entries with
  | some (.seq nodes) =>
    items (childPath path "ipv") (fun place node =>
      match node.scalarText? with
      | some text => value place Lexical.directFamily text
      | none => [⟨place, .familyShape⟩]) 0 nodes
  | _ => directFamily path entries

def groupRule (path : String) (entries : Node.Entries) : List Finding :=
  keys path Keys.groupRule "rule group rule" entries
    ++ required path Keys.groupMemberRequired "rule group rule" entries
    ++ scalar path "args" entries ++ priority path entries ++ loop path entries

def groupPassthrough (path : String) (node : Node) : List Finding :=
  match node with
  | .str _ => []
  | .map entries =>
    keys path Keys.groupPassthrough "rule group passthrough" entries
      ++ required path Keys.groupMemberRequired "rule group passthrough" entries
      ++ scalar path "args" entries ++ loop path entries
  | _ => [⟨path, .groupPassthroughShape node.kindName⟩]

def ruleGroup (path : String) (entries : Node.Entries) : List Finding :=
  keys path Keys.ruleGroup "rule group" entries
    ++ required path Keys.ruleGroupRequired "rule group" entries
    ++ scalars path ["table", "chain"] entries ++ priority path entries
    ++ families path entries
    ++ list path "rules" entries (mapping "rule group rule" groupRule)
    ++ list path "passthroughs" entries groupPassthrough

/-! ## The block -/

def direct (path : String) (entries : Node.Entries) : List Finding :=
  keys path Keys.direct "direct" entries
    ++ list path "chains" entries (mapping "direct chain" directChain)
    ++ list path "rules" entries (mapping "direct rule" directRule)
    ++ list path "passthroughs" entries (mapping "passthrough" passthrough)
    ++ list path "rule_groups" entries (mapping "rule group" ruleGroup)

end ZoneScript.Finding
