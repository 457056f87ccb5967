import HttpFields.Abnf.Counting
import HttpFields.Abnf.Language
import HttpFields.Abnf.Mention
import HttpFields.Reader
import HttpFields.Proofs.Abnf.Counting
import HttpFields.Proofs.Abnf.Boundary
import HttpFields.Proofs.Abnf.Exact
import HttpFields.Proofs.Host.Reading
import HttpFields.Proofs.Credentials
import HttpFields.Proofs.HttpDate.RoundTrip
import HttpFields.Proofs.Credentials.RoundTrip
import HttpFields.Proofs.MediaType
import HttpFields.Proofs.MediaType.RoundTrip
import HttpFields.Proofs.Host.Name
import HttpFields.Proofs.Host.RoundTrip
import HttpFields.Proofs.Ranges
import HttpFields.Proofs.Ranges.RoundTrip
import HttpFields.Proofs.Calendar.Count
import HttpFields.Proofs.HttpDate.Outcome
import HttpFields.Proofs.Reader
import HttpFields.Proofs.Abnf.Denotation
import HttpFields.Proofs.Quoted.RoundTrip
import HttpFields.Proofs.Host.Parts
import HttpFields.Proofs.Quoted.Items
import HttpFields.Proofs.Abnf.Equivalence
import HttpFields.Proofs.Abnf.Iteration
import HttpFields.Proofs.Codings
import HttpFields.Proofs.Credentials.Padding
import HttpFields.Proofs.Length
import HttpFields.Proofs.Abnf.Runs
import HttpFields.Proofs.Calendar.Gregorian
