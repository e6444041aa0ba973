import ReverseMode.Derivative.Propagation
import ReverseMode.Program.Simplify
import ReverseMode.Realize.Realizer
import ReverseMode.Tensor.Literal
import ReverseMode.Proofs.Exact.Scalar
import ReverseMode.Proofs.Nodes.Subnode
import ReverseMode.Proofs.Nodes.Differentiable
import ReverseMode.Proofs.Nodes.Equality
import ReverseMode.Proofs.Exact.Bindings
import ReverseMode.Proofs.Exact.Sensitivity
import ReverseMode.Proofs.Algebra.Canonical
import ReverseMode.Proofs.Algebra.Closed
import ReverseMode.Proofs.Algebra.Inversion
import ReverseMode.Proofs.Algebra.Preserving
import ReverseMode.Proofs.Bounds.Bordered
import ReverseMode.Proofs.Bounds.Nesting
import ReverseMode.Proofs.Bounds.Skipping
import ReverseMode.Proofs.Bounds.Tightness
import ReverseMode.Proofs.Derivative.Canonicalization
import ReverseMode.Proofs.Derivative.Closing
import ReverseMode.Proofs.Derivative.Consumers
import ReverseMode.Proofs.Derivative.Lookups
import ReverseMode.Proofs.Derivative.Output
import ReverseMode.Proofs.Derivative.Prefix
import ReverseMode.Proofs.Derivative.Renaming
import ReverseMode.Proofs.Derivative.Sharing
import ReverseMode.Proofs.Program.Settled
import ReverseMode.Proofs.Derivative.Timely
import ReverseMode.Proofs.Realize.Containment
import ReverseMode.Proofs.Realize.Replacing
import ReverseMode.Proofs.Realize.Requests
