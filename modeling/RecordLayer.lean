import RecordLayer.KeySchedule.SecretStore
import RecordLayer.Proofs.BlockStreams
import RecordLayer.Proofs.Budgets
import RecordLayer.Proofs.ChainDiscipline
import RecordLayer.Proofs.ConnectionIds
import RecordLayer.Proofs.Datagrams
import RecordLayer.Proofs.Disclosure
import RecordLayer.Proofs.ExpansionLabels
import RecordLayer.Proofs.Expansions
import RecordLayer.Proofs.FailedSends
import RecordLayer.Proofs.HashingWork
import RecordLayer.Proofs.HeaderCodec
import RecordLayer.Proofs.HiddenTypes
import RecordLayer.Proofs.KeyBlocks
import RecordLayer.Proofs.NonceUse
import RecordLayer.Proofs.Requirements
import RecordLayer.Proofs.RunningTags
import RecordLayer.Proofs.SecretLifetimes
import RecordLayer.Proofs.Stream
import RecordLayer.Proofs.TagGrammar
import RecordLayer.Proofs.TagRequests
