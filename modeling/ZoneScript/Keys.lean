import ZoneScript.ZoneField

/-!
# The keys of a document

For each kind of mapping in a document the keys that it may hold, in the order in which a misspelt
key is compared with them, and for some the keys that it should hold.
-/

namespace ZoneScript.Keys

def topLevel : List String := ["variables", "zones", "direct"]

def zone : List String := ZoneField.all.map (·.key)

def valueItem : List String := ["value", "loop"]

def port : List String := ["port", "protocol", "loop"]

def forwardPort : List String := ["port", "protocol", "to_port", "to_addr", "loop"]

def richRule : List String :=
  ["family", "source", "source_invert", "destination", "destination_invert", "service", "port",
    "protocol", "icmp_block", "icmp_type", "masquerade", "forward_port", "source_port", "log",
    "audit", "action", "reject_type", "mark_set", "loop"]

/-- The keys of a rich rule that make it do something. -/
def richRuleEffect : List String := ["action", "log", "audit", "masquerade"]

def richLog : List String := ["prefix", "level", "limit"]

def richForwardPort : List String := ["port", "protocol", "to_port", "to_addr"]

def richSourcePort : List String := ["port", "protocol"]

def direct : List String := ["chains", "rules", "passthroughs", "rule_groups"]

def directChain : List String := ["ipv", "table", "chain"]

def directRule : List String := ["ipv", "table", "chain", "priority", "args", "loop"]

def directRuleRequired : List String := ["ipv", "table", "chain", "priority", "args"]

def passthrough : List String := ["ipv", "args", "loop"]

def passthroughRequired : List String := ["ipv", "args"]

def ruleGroup : List String := ["ipv", "table", "chain", "priority", "rules", "passthroughs"]

def ruleGroupRequired : List String := ["ipv", "table", "chain"]

def groupRule : List String := ["priority", "args", "loop"]

def groupPassthrough : List String := ["args", "loop"]

/-- What every member of a rule group should hold. -/
def groupMemberRequired : List String := ["args"]

end ZoneScript.Keys
