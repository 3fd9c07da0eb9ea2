import AccessRules.Condition
import AccessRules.Decimal.Layout
import AccessRules.Decimal.Shortest
import AccessRules.Double.Basic
import AccessRules.Double.Display
import AccessRules.Double.Rounding
import AccessRules.Field
import AccessRules.Group
import AccessRules.Json.Basic
import AccessRules.Json.Fault
import AccessRules.Json.Printer
import AccessRules.Json.Reader
import AccessRules.Json.Reader.Numeral
import AccessRules.Json.Reader.Quoted
import AccessRules.Load
import AccessRules.Malformed
import AccessRules.Operator
import AccessRules.Path
import AccessRules.Proofs.Decimal.Digits
import AccessRules.Proofs.Decimal.Fewest
import AccessRules.Proofs.Decimal.Plain
import AccessRules.Proofs.Decimal.ReadsBack
import AccessRules.Proofs.Decimal.Scaling
import AccessRules.Proofs.Delimited
import AccessRules.Proofs.Double.Exact
import AccessRules.Proofs.Double.Monotone
import AccessRules.Proofs.Double.Nearest
import AccessRules.Proofs.Equality
import AccessRules.Proofs.Json.Doubles
import AccessRules.Proofs.Json.Lossless
import AccessRules.Proofs.Json.Numeral
import AccessRules.Proofs.Json.Quoted
import AccessRules.Proofs.Json.ReadBack
import AccessRules.Proofs.Json.Sorted
import AccessRules.Proofs.Json.Spelling
import AccessRules.Proofs.Members
import AccessRules.Proofs.Names
import AccessRules.Proofs.Numbers
import AccessRules.Proofs.Outcome
import AccessRules.Proofs.Rule.Decimal
import AccessRules.Proofs.Rule.Decoding
import AccessRules.Proofs.Rule.Distinct
import AccessRules.Proofs.Rule.Events
import AccessRules.Proofs.Rule.Faults
import AccessRules.Proofs.Rule.Grouping
import AccessRules.Proofs.Rule.Legible
import AccessRules.Proofs.Rule.Lists
import AccessRules.Proofs.Rule.Meaning
import AccessRules.Proofs.Rule.Nesting
import AccessRules.Proofs.Rule.Number
import AccessRules.Proofs.Rule.Refusal
import AccessRules.Proofs.Rule.Text
import AccessRules.Proofs.Token
import AccessRules.Proofs.Tuple.Acceptance
import AccessRules.Proofs.Tuple.Canonical
import AccessRules.Proofs.Tuple.Decimals
import AccessRules.Proofs.Tuple.Depth
import AccessRules.Proofs.Tuple.FirstFault
import AccessRules.Proofs.Tuple.Grammar
import AccessRules.Proofs.Tuple.Groups
import AccessRules.Proofs.Tuple.Index
import AccessRules.Proofs.Tuple.Integers
import AccessRules.Proofs.Tuple.Operands
import AccessRules.Proofs.Tuple.Reread
import AccessRules.Proofs.Tuple.RuleText
import AccessRules.Proofs.Tuple.Sameness
import AccessRules.Proofs.Tuple.Settled
import AccessRules.Proofs.Tuple.ThroughText
import AccessRules.Proofs.Utf8
import AccessRules.Report
import AccessRules.Rule
import AccessRules.Stack
import AccessRules.Token
import AccessRules.Trace
import AccessRules.Tuple.Reader
import AccessRules.Tuple.Verb
import AccessRules.Tuple.Writer
