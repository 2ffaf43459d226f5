import ZoneScript.Main
import ZoneScript.Proofs.Additions
import ZoneScript.Proofs.Banners
import ZoneScript.Proofs.CheckedRules
import ZoneScript.Proofs.CommandWords
import ZoneScript.Proofs.Continuations
import ZoneScript.Proofs.DefaultZone
import ZoneScript.Proofs.DirectArguments
import ZoneScript.Proofs.Directions
import ZoneScript.Proofs.Documents
import ZoneScript.Proofs.ItemShapes
import ZoneScript.Proofs.LineNumbers
import ZoneScript.Proofs.LoopNames
import ZoneScript.Proofs.NormalForm
import ZoneScript.Proofs.PortNumbers
import ZoneScript.Proofs.Reloading
import ZoneScript.Proofs.RoundTrip
import ZoneScript.Proofs.RuleGroups
import ZoneScript.Proofs.ScalarTexts
import ZoneScript.Proofs.Shortening
import ZoneScript.Proofs.Silence
import ZoneScript.Proofs.Suggestions
import ZoneScript.Proofs.Unions
import ZoneScript.Proofs.UnknownKeys
import ZoneScript.Proofs.VariableOrder
import ZoneScript.Proofs.Warnings
