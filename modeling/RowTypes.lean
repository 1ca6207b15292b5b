import RowTypes.Codec
import RowTypes.Json.Basic
import RowTypes.Json.Nesting
import RowTypes.Json.Number
import RowTypes.Json.Parse
import RowTypes.Json.Print
import RowTypes.Kind
import RowTypes.Name
import RowTypes.Proofs.Brackets
import RowTypes.Proofs.Codec.Checks
import RowTypes.Proofs.Codec.Levels
import RowTypes.Proofs.Codec.Limits
import RowTypes.Proofs.Codec.Paths
import RowTypes.Proofs.Codec.RoundTrip
import RowTypes.Proofs.Codec.Stable
import RowTypes.Proofs.Flags
import RowTypes.Proofs.FreeVars
import RowTypes.Proofs.Json.Bytes
import RowTypes.Proofs.Json.Canonical
import RowTypes.Proofs.Json.Chains
import RowTypes.Proofs.Json.Guarded
import RowTypes.Proofs.Json.Layout
import RowTypes.Proofs.Json.Nesting
import RowTypes.Proofs.Json.Numeral
import RowTypes.Proofs.Json.Parts
import RowTypes.Proofs.Json.Quoted
import RowTypes.Proofs.Json.ReadBack
import RowTypes.Proofs.Json.Scan
import RowTypes.Proofs.Json.Turns
import RowTypes.Proofs.Name
import RowTypes.Proofs.Occurrences
import RowTypes.Proofs.Order.Fields
import RowTypes.Proofs.Order.Laws
import RowTypes.Proofs.Quantify.FreeVars
import RowTypes.Proofs.Quantify.References
import RowTypes.Proofs.Quantify.Spine
import RowTypes.Proofs.Row
import RowTypes.Proofs.Subst.Compose
import RowTypes.Proofs.Subst.Equations
import RowTypes.Proofs.Subst.FreeVars
import RowTypes.Proofs.Subst.Fresh
import RowTypes.Proofs.Subst.Nameless
import RowTypes.Proofs.Subst.Rewrite
import RowTypes.Proofs.Subst.Rows
import RowTypes.Proofs.Subst.Rules
import RowTypes.Proofs.Subst.Shortcuts
import RowTypes.Proofs.Subst.Termination
import RowTypes.Proofs.Subst.Unchanged
import RowTypes.Proofs.Traversal.Calls
import RowTypes.Proofs.Traversal.Context
import RowTypes.Proofs.Traversal.Descent
import RowTypes.Proofs.Traversal.Evaluation
import RowTypes.Proofs.Traversal.Leaves
import RowTypes.Proofs.Traversal.Rewriting
import RowTypes.Proofs.Traversal.Termination
import RowTypes.Proofs.Ty.Alpha
import RowTypes.Proofs.Ty.Display
import RowTypes.Proofs.Ty.Nameless
import RowTypes.Proofs.Ty.Nodes
import RowTypes.Proofs.Ty.Paths
import RowTypes.Proofs.Ty.Quantifiers
import RowTypes.Proofs.Ty.Rebuild
import RowTypes.Proofs.Ty.Unnamed
import RowTypes.Proofs.UsedVars
import RowTypes.Proofs.Wire.Arrange
import RowTypes.Proofs.Wire.Depth
import RowTypes.Proofs.Wire.ReadBack
import RowTypes.Quantify
import RowTypes.Row
import RowTypes.Subst
import RowTypes.Traversal.Engine
import RowTypes.Traversal.Rewrite
import RowTypes.Traversal.Summary
import RowTypes.Ty.Basic
import RowTypes.Ty.Display
import RowTypes.Ty.Flags
import RowTypes.Ty.Hash
import RowTypes.Ty.Order
import RowTypes.Ty.Tag
import RowTypes.Vars
import RowTypes.Wire.Decode
import RowTypes.Wire.Encode
