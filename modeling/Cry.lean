import Cry.Effects.RelyGuarantee
import Cry.Effects.Total
import Cry.Bytes.Framing
import Cry.Rust.Stream
import Cry.Rust.Reliable
import Cry.Header.Codec
import Cry.Cipher.Layout
import Cry.Cipher.RoundTrip
import Cry.Cipher.Refinement
import Cry.Cipher.Tamper
import Cry.Cipher.Publication
import Cry.Cipher.Recovery
import Cry.Cipher.Refusal
import Cry.Cipher.Authenticity
import Cry.Cipher.Atomicity
import Cry.Cipher.Overwrite
import Cry.Cipher.Nonces
import Cry.Cipher.DataFlow
import Cry.Cipher.Reference
import Cry.Crydna.Signature
import Cry.Keygen.Coherence
import Cry.Keygen.Export
import Cry.Keygen.Modes
import Cry.Keygen.Bases
import Cry.Keygen.Interleaving
import Cry.Cli.Passphrase
import Cry.Cli.Calls
import Cry.Cli.Verify
import Cry.Cli.Sign
import Cry.Ssh.Agent
import Cry.Ssh.AgentOutput
import Cry.Ssh.Holding
import Cry.Ssh.Removal
import Cry.Ssh.Privacy
