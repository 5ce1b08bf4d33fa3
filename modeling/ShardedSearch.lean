import ShardedSearch.Order.Map
import ShardedSearch.Text.Blank
import ShardedSearch.Text.DecimalDigit
import ShardedSearch.Text.Escape
import ShardedSearch.Text.Separator
import ShardedSearch.Calendar.Date
import ShardedSearch.Calendar.Text
import ShardedSearch.Candidate.Counts
import ShardedSearch.Candidate.Evidence
import ShardedSearch.DayIndex.Prune
import ShardedSearch.DayIndex.Run
import ShardedSearch.Lookup.Batches
import ShardedSearch.Lookup.Clause
import ShardedSearch.Number.Ratio
import ShardedSearch.Plan.Prepare
import ShardedSearch.Plan.Route
import ShardedSearch.Settings.Document
import ShardedSearch.Settings.File
import ShardedSearch.Settings.Loader
import ShardedSearch.Proofs.Plan.Agreement
import ShardedSearch.Proofs.Plan.Driving
import ShardedSearch.Proofs.Plan.Faults
import ShardedSearch.Proofs.DayIndex.Years
import ShardedSearch.Proofs.Plan.Ascending
import ShardedSearch.Proofs.Plan.Routing
import ShardedSearch.Proofs.Index.Delimited
import ShardedSearch.Proofs.Index.PeriodCanonical
import ShardedSearch.Proofs.Store.Calls
import ShardedSearch.Proofs.Merge.Days
import ShardedSearch.Proofs.Plan.Reordering
import ShardedSearch.Proofs.Query.Flattening
import ShardedSearch.Proofs.DayIndex.Refuted
import ShardedSearch.Proofs.DayIndex.Gathering
import ShardedSearch.Proofs.Merge.Seeking
import ShardedSearch.Proofs.Lookup.SingleValue
import ShardedSearch.Proofs.Plan.Refusal
import ShardedSearch.Proofs.Query.Selectivity
import ShardedSearch.Proofs.Plan.Prediction
import ShardedSearch.Proofs.Plan.Closing
import ShardedSearch.Proofs.Candidate.Grouping
import ShardedSearch.Proofs.Index.PaddedEntry
import ShardedSearch.Proofs.Plan.TermCounts
import ShardedSearch.Proofs.Candidate.TermKeys
import ShardedSearch.Proofs.Plan.Days
import ShardedSearch.Proofs.DayIndex.Handover
import ShardedSearch.Proofs.Wire.Ending
