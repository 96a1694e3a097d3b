import FinSight.Ask.Course
import FinSight.Ask.Question
import FinSight.Documents.Embed
import FinSight.Documents.Nearest
import FinSight.Documents.Provenance
import FinSight.Guarantees.Access
import FinSight.Guarantees.Admissions
import FinSight.Guarantees.AppendOnly
import FinSight.Guarantees.Attribution
import FinSight.Guarantees.Balances
import FinSight.Guarantees.CanonicalForms
import FinSight.Guarantees.Citations
import FinSight.Guarantees.ClaimHolder
import FinSight.Guarantees.Cursors
import FinSight.Guarantees.DailyBudget
import FinSight.Guarantees.Deduplication
import FinSight.Guarantees.Entries
import FinSight.Guarantees.Extraction
import FinSight.Guarantees.FileNames
import FinSight.Guarantees.Grounding
import FinSight.Guarantees.Index
import FinSight.Guarantees.Isolation
import FinSight.Guarantees.IssueLines
import FinSight.Guarantees.Issuing
import FinSight.Guarantees.Lifecycle
import FinSight.Guarantees.Memberships
import FinSight.Guarantees.NormalForm
import FinSight.Guarantees.Numbers
import FinSight.Guarantees.Outlines
import FinSight.Guarantees.Pagination
import FinSight.Guarantees.PaymentSpelling
import FinSight.Guarantees.Payments
import FinSight.Guarantees.Progress
import FinSight.Guarantees.Quotations
import FinSight.Guarantees.Receivable
import FinSight.Guarantees.Redaction
import FinSight.Guarantees.Restart
import FinSight.Guarantees.SourceTags
import FinSight.Guarantees.Spending
import FinSight.Guarantees.Stranded
import FinSight.Guarantees.TokenCap
import FinSight.Guarantees.Totals
import FinSight.Guarantees.Views
import FinSight.Guarantees.Windows
import FinSight.Identity.Access
import FinSight.Identity.Gateway
import FinSight.Ingest.Extract
import FinSight.Ingest.Excerpts
import FinSight.ReadCommitted.Recorded
import FinSight.Serial.Collisions
