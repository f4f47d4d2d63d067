import AnnotatedScheme.Main
import AnnotatedScheme.Proofs.CommandLine.Source
import AnnotatedScheme.Proofs.Datum.Forbidden
import AnnotatedScheme.Proofs.Datum.Grammar
import AnnotatedScheme.Proofs.Datum.Joined
import AnnotatedScheme.Proofs.Datum.Layout
import AnnotatedScheme.Proofs.Datum.RoundTrip
import AnnotatedScheme.Proofs.Datum.WholeNumber
import AnnotatedScheme.Proofs.Env.Register
import AnnotatedScheme.Proofs.Exp.Quoted
import AnnotatedScheme.Proofs.Exp.Written
import AnnotatedScheme.Proofs.Ty.RoundTrip
import AnnotatedScheme.Proofs.Ty.Walk
import AnnotatedScheme.Proofs.Typing.Declared
import AnnotatedScheme.Proofs.Typing.Drawing
import AnnotatedScheme.Proofs.Typing.Inlined
import AnnotatedScheme.Proofs.Typing.Instance
import AnnotatedScheme.Proofs.Typing.Nested
import AnnotatedScheme.Proofs.Typing.NonRecursive
import AnnotatedScheme.Proofs.Typing.Origin
import AnnotatedScheme.Proofs.Typing.Permuted
import AnnotatedScheme.Proofs.Value.RoundTrip
