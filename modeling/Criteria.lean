import Criteria.Compilation.Request
import Criteria.Json.Parser
import Criteria.Postgres.Parameter
import Criteria.Proofs.Account
import Criteria.Proofs.ColumnMap.Operations
import Criteria.Proofs.Compilation.Notices
import Criteria.Proofs.Compilation.Refusal
import Criteria.Proofs.Compilation.Specification
import Criteria.Proofs.Congruence
import Criteria.Proofs.Identifier.Grammar
import Criteria.Proofs.Postgres.Integers
import Criteria.Proofs.Reading.Agreement
import Criteria.Proofs.Reading.Depth
import Criteria.Proofs.Reading.Grammar
import Criteria.Proofs.Reading.Image
import Criteria.Proofs.Reading.Modes
import Criteria.Proofs.Reading.Parts
import Criteria.Proofs.Reading.Terms
import Criteria.Proofs.Validation.Composition
import Criteria.Proofs.Validation.EmptyLists
import Criteria.Proofs.Value.Normal
import Criteria.Proofs.Value.RoundTrip
import Criteria.Proofs.Value.Writing
import Criteria.Reading.Request
import Criteria.Validation
import Criteria.Value.Convert
