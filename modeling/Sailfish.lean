import Sailfish.Crypto
import Sailfish.Config
import Sailfish.Trace
import Sailfish.Bytes
import Sailfish.Messages
import Sailfish.HeaderDigest
import Sailfish.MessageDigests
import Sailfish.Synchronizer
import Sailfish.CertificateWaiter
import Sailfish.BinarySearch
import Sailfish.Node
import Sailfish.Aggregators.Timeouts
import Sailfish.Aggregators.Certificates
import Sailfish.Aggregators.Votes
import Sailfish.Aggregators.VotesRun
import Sailfish.Delivery
import Sailfish.Delivery.Passes
import Sailfish.Delivery.Refinement
import Sailfish.Delivery.Tasks
import Sailfish.Delivery.Deadlock
import Sailfish.Delivery.Liveness
