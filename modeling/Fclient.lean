import Fclient.Base.Run
import Fclient.Base.Monitor
import Fclient.Base.Memory
import Fclient.Base.Fits
import Fclient.Jni
import Fclient.Native.Cipher
import Fclient.Native.Rng
import Fclient.Native.Utf8
import Fclient.Native.Transaction
import Fclient.Client.DecimalFormat
import Fclient.Client.Pinpad
import Fclient.Verify.Cipher
import Fclient.Verify.RoundTrip
import Fclient.Verify.Rng
import Fclient.Verify.Transaction
import Fclient.Verify.Pinpad
import Fclient.Verify.Amount
import Fclient.Client.Session
import Fclient.Verify.Session
import Fclient.Verify.Wakeup
import Fclient.Verify.Serial
import Fclient.Verify.Solo
import Fclient.Verify.Authenticity
import Fclient.Verify.Refinement
import Fclient.Base.Bounds
import Fclient.Native.CheckedCipher
import Fclient.Verify.Bounds
import Fclient.Base.Pkcs
import Fclient.Verify.Padding
import Fclient.Verify.Utf8
import Fclient.Verify.Verdict
import Fclient.Base.Ledger
import Fclient.Verify.Resources
import Fclient.Verify.Record
import Fclient.Base.Shuffle
import Fclient.Verify.Shuffle
import Fclient.Base.Regex
import Fclient.Client.PageTitle
import Fclient.Verify.PageTitle
import Fclient.Base.Uniform
import Fclient.Verify.Bias
import Fclient.Verify.Overflow
import Fclient.Verify.Blocks
import Fclient.Base.Pattern
import Fclient.Verify.Completion
import Fclient.Verify.Grammar
import Fclient.Verify.History
import Fclient.Verify.Provenance
import Fclient.Verify.Screen
import Fclient.Verify.Ecb
import Fclient.Base.Outbox
import Fclient.Client.Startup
import Fclient.Client.Toast
import Fclient.Verify.Startup
import Fclient.Verify.Toast
import Fclient.Verify.Approval
import Fclient.Verify.Realization
import Fclient.Verify.Delivery
