import BatchOrder.Proofs.Division
import BatchOrder.Proofs.Endpoint
import BatchOrder.Proofs.Executions
import BatchOrder.Proofs.KeyedHeap.Draining
import BatchOrder.Proofs.Part
import BatchOrder.Proofs.Renaming
import BatchOrder.Proofs.Schedule.Recording
import BatchOrder.Proofs.Submission
import BatchOrder.Proofs.Lookup
import BatchOrder.Proofs.Log
import BatchOrder.Proofs.MainsAlone
import BatchOrder.Proofs.Schedule.Accounting
import BatchOrder.Proofs.Places
import BatchOrder.Proofs.Remainder
import BatchOrder.Proofs.Schedule.Rivals
import BatchOrder.Proofs.Checks
import BatchOrder.Proofs.KeptOrder
import BatchOrder.Proofs.MergePattern
import BatchOrder.Proofs.Components
import BatchOrder.Proofs.Schedule.Locality
import BatchOrder.Proofs.Links
