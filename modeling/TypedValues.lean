import TypedValues.Inspect
import TypedValues.Proofs.WellFormed
import TypedValues.Proofs.Ranges
import TypedValues.Proofs.Selectors
import TypedValues.Proofs.Overwriting
import TypedValues.Proofs.Refusal
import TypedValues.Proofs.Omission
import TypedValues.Proofs.Evaluation
import TypedValues.Proofs.Positional
import TypedValues.Proofs.Locality
import TypedValues.Proofs.ItemTexts
import TypedValues.Proofs.Lookup
import TypedValues.Proofs.ArrayEdits
import TypedValues.Proofs.RealTexts
import TypedValues.Proofs.Ancestry
import TypedValues.Proofs.Retention
import TypedValues.Proofs.MemberPaths
