import ChainInscription.Transaction
import ChainInscription.Library
import ChainInscription.FeeRate
import ChainInscription.Reference
import ChainInscription.Request
import ChainInscription.Envelope
import ChainInscription.FundingSigner
import ChainInscription.Estimator
import ChainInscription.Assembler
import ChainInscription.Planner
import ChainInscription.Signer
import ChainInscription.Tool
import ChainInscription.ChainShape
import ChainInscription.Layout
import ChainInscription.Signing
import ChainInscription.Run
import ChainInscription.Draws
import ChainInscription.Outcome
import ChainInscription.Accounting
import ChainInscription.Spending
import ChainInscription.Rebuild
import ChainInscription.Amounts
import ChainInscription.Batches
import ChainInscription.Remainder
import ChainInscription.Funding
import ChainInscription.Locality
